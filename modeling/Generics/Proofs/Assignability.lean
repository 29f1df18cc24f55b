import Generics.Proofs.Order

/-!
Arrays are below arrays as their components are, below the root class and the
two array interfaces, and below no other type of a class; no type of a class is
below an array. With the order on types of classes, assignability between
ground types is a partial order.
-/

namespace Generics.Subtyping

open Vocabulary
open Ty (Same)

variable {env : Env} {w : Vocabulary env} {s t u : Ty} {c d r : ClassRef}

/-! ## Array classes -/

theorem isObject_arrayOf (c : ClassRef) : (ClassRef.arrayOf c).isObject = false := by
  rw [← Bool.not_eq_true]
  intro h
  have hname : (ClassRef.arrayOf c).name = ClassRef.rootName := by
    simpa only [ClassRef.isObject, beq_iff_eq] using h
  have hlast := ClassRef.getLast?_arrayOf c
  rw [hname] at hlast
  exact absurd hlast (by decide)

/-- Array classes that are named after their components follow these. -/
theorem isSubclass_arrayOf :
    env.isSubclass (.arrayOf c) (.arrayOf d) = env.isSubclass c d := by
  rw [Bool.eq_iff_iff]
  refine (Env.isSubclass_arrays (isObject_arrayOf d)).trans ⟨?_, fun hsub => ?_⟩
  · rintro (hname | ⟨-, -, hsub⟩)
    · exact Env.isSubclass_of_name (ClassRef.name_of_arrayOf hname)
    · exact hsub
  · by_cases hname : c.name = d.name
    · exact Or.inl (congrArg (· ++ "[]") hname)
    · obtain ⟨hcprimitive, hdprimitive⟩ := Env.isPrimitive_of_isSubclass hsub hname
      exact Or.inr ⟨hcprimitive, hdprimitive, hsub⟩

section

variable (hc : w.isClass c) (hcarray : c.isArray = true) (hd : w.isClass d)
  (harray : d.isArray = false)

include hc hcarray hd harray

theorem name_array_ne : c.name ≠ d.name := by
  intro hname
  rw [class_unique hc hd hname, harray] at hcarray
  cases hcarray

/-- Besides arrays three classes are above an array class, whatever its component. -/
theorem isSubclass_array_plain : env.isSubclass c d = true ↔
    d ∈ [ClassRef.object, .cloneable, .serializable] := by
  constructor
  · intro h
    obtain ⟨top, htop, hname⟩ :=
      Env.exists_arrayTop hcarray harray (name_array_ne hc hcarray hd harray) h
    rw [← class_unique (isClass_top htop).1 hd hname]
    exact htop
  · exact Env.isSubclass_arrayTop hcarray

/-- No array class is above another class. -/
theorem not_isSubclass_array : env.isSubclass d c = false := by
  have hne : (d == c) = false := by
    rw [← Bool.not_eq_true, ClassRef.beq_iff_name]
    exact fun hname => name_array_ne hc hcarray hd harray hname.symm
  obtain ⟨name, kind, rfl⟩ := ClassRef.exists_named harray
  rw [Env.isSubclass.eq_def, hne, isObject_of_isArray hc hcarray]
  cases c with
  | named _ _ => cases hcarray
  | array _ _ => simp

end

/-! ## Array types -/

theorem arrayOf_cases (hs : s.isWildcard = false) :
    (∃ c, s = .cls c ∧ s.arrayOf = .cls (.arrayOf c)) ∨
      (s.arrayOf = .array s ∧ ∀ c, s ≠ .cls c) := by
  cases s with
  | cls c => exact Or.inl ⟨c, rfl, rfl⟩
  | wild _ _ => cases hs
  | _ => exact Or.inr ⟨rfl, fun _ h => by cases h⟩

theorem holds_array_array : Holds env (.array s) (.array t) ↔ Holds env s t := by
  constructor
  · intro h
    cases h.rule with
    | equal hsame =>
        obtain ⟨_, harray, hcomponent⟩ := Ty.same_array.mp hsame
        cases harray
        exact holds_of_same hcomponent
    | components h => exact h
  · exact fun h => holds_of_rule (.components h)

theorem holds_class_array (hc : c.component? = some d) :
    Holds env (.cls c) (.array t) ↔ Holds env (.cls d) t := by
  constructor
  · intro h
    cases h.rule with
    | equal hsame =>
        obtain ⟨_, hcls, -⟩ := Ty.same_cls.mp hsame
        cases hcls
    | ofArrayClass hc' h =>
        obtain rfl := Option.some.inj (hc.symm.trans hc')
        exact h
  · exact fun h => holds_of_rule (.ofArrayClass hc h)

theorem holds_array_class (hc : c.component? = some d) :
    Holds env (.array s) (.cls c) ↔ Holds env s (.cls d) := by
  constructor
  · intro h
    cases h.rule with
    | equal hsame =>
        obtain ⟨_, harray, -⟩ := Ty.same_array.mp hsame
        cases harray
    | toArrayClass hc' h =>
        obtain rfl := Option.some.inj (hc.symm.trans hc')
        exact h
    | aboveArrays hc' _ => cases hc.symm.trans hc'
    | ancestor hraw _ => cases hraw
  · exact fun h => holds_of_rule (.toArrayClass hc h)

/-- Arrays are below arrays as their components are. -/
theorem holds_arrayOf (hs : s.isWildcard = false) (ht : t.isWildcard = false) :
    Holds env s.arrayOf t.arrayOf ↔ Holds env s t := by
  rcases arrayOf_cases hs with ⟨c, rfl, hsarray⟩ | ⟨hsarray, -⟩
  · rcases arrayOf_cases ht with ⟨d, rfl, htarray⟩ | ⟨htarray, -⟩
    · rw [hsarray, htarray, holds_cls_iff rfl, holds_cls_iff rfl, isSubclass_arrayOf]
    · rw [hsarray, htarray]
      exact holds_class_array rfl
  · rcases arrayOf_cases ht with ⟨d, rfl, htarray⟩ | ⟨htarray, -⟩
    · rw [hsarray, htarray]
      exact holds_array_class rfl
    · rw [hsarray, htarray]
      exact holds_array_array

/-- An array type, with its component. -/
inductive ArrayOver (w : Vocabulary env) : Ty → Ty → Prop where
  | generic {a} (ha : a.isWildcard = false) (hclass : ∀ raw, a ≠ .cls raw) :
      ArrayOver w (.array a) a
  | ofClass {name component} (hclass : w.isClass (.array name component)) :
      ArrayOver w (.cls (.array name component)) (.cls component)

theorem arrayOver_arrayOf (hs : w.Writes s) (hwild : s.isWildcard = false) :
    ArrayOver w s.arrayOf s := by
  rcases arrayOf_cases hwild with ⟨c, rfl, harray⟩ | ⟨harray, hclass⟩
  · cases hs with
    | cls hc =>
        rw [harray]
        exact .ofClass (w.arrayOf _ hc)
  · rw [harray]
    exact .generic hwild hclass

section

variable {a b : Ty}

/-- The components of related arrays are related. -/
theorem holds_component (hs : ArrayOver w s a) (ht : ArrayOver w t b) (h : Holds env s t) :
    Holds env a b := by
  cases hs with
  | generic _ _ =>
      cases ht with
      | generic _ _ => exact holds_array_array.mp h
      | ofClass _ => exact (holds_array_class rfl).mp h
  | ofClass hc =>
      cases ht with
      | generic _ _ => exact (holds_class_array rfl).mp h
      | ofClass hd =>
          rw [holds_cls_iff rfl] at h ⊢
          rcases (Env.isSubclass_arrays (isObject_of_isArray hd rfl)).mp h with hname | ⟨-, -, hsub⟩
          · cases class_unique hc hd hname
            exact Env.isSubclass_of_name rfl
          · exact hsub

/-- Arrays of related components are related, unless the components are primitive. -/
theorem holds_of_component (hs : ArrayOver w s a) (ht : ArrayOver w t b)
    (ha : a.isPrimitive = false) (h : Holds env a b) : Holds env s t := by
  cases hs with
  | generic _ _ =>
      cases ht with
      | generic _ _ => exact holds_array_array.mpr h
      | ofClass _ => exact (holds_array_class rfl).mpr h
  | @ofClass _ c hc =>
      cases ht with
      | generic _ _ => exact (holds_class_array rfl).mpr h
      | @ofClass _ d hd =>
          rw [holds_cls_iff rfl] at h ⊢
          have hcprimitive : c.isPrimitive = false := ha
          refine (Env.isSubclass_arrays (isObject_of_isArray hd rfl)).mpr
            (Or.inr ⟨hcprimitive, ?_, h⟩)
          rw [← Bool.not_eq_true]
          intro hdprimitive
          have heq := eq_of_primitive_class (w.component _ hc _ rfl) (w.component _ hd _ rfl)
            (Or.inr hdprimitive) h
          rw [heq, hdprimitive] at hcprimitive
          cases hcprimitive

/-- A type of a class that is no array is below no array. -/
theorem not_holds_array (hs : Simple w s) (ht : ArrayOver w t b) : ¬Holds env s t := by
  obtain ⟨c, hraw, hc, harray⟩ := hs.raw
  intro h
  cases ht with
  | ofClass hd =>
      rw [holds_cls_iff hraw, not_isSubclass_array hd rfl hc harray] at h
      cases h
  | generic _ _ =>
      cases h.rule with
      | equal hsame =>
          obtain ⟨d, hd, -⟩ := Env.raw?_of_same hsame hraw
          cases hd
      | upper _ _ _ => cases hraw
      | bound _ _ _ => cases hraw
      | components _ => cases hraw
      | ofArrayClass hcomponent _ =>
          cases hraw
          obtain ⟨_, _, rfl⟩ := ClassRef.exists_named harray
          cases hcomponent

end

theorem instantiated_cls (t : Ty) (d : ClassRef) : env.instantiated t (.cls d) = .cls d := by
  unfold Env.instantiated
  split <;> rfl

theorem array_edge {edge : Ty} (hc : c.isArray = true)
    (hedge : edge ∈ env.classes.directSupertypes c) :
    ∃ d ∈ [ClassRef.object, .cloneable, .serializable], edge = .cls d := by
  cases c with
  | named _ _ => cases hc
  | array name component =>
      have hedges : edge ∈ [ClassRef.object, .cloneable, .serializable].map Ty.cls := hedge
      obtain ⟨d, hd, rfl⟩ := List.mem_map.mp hedges
      exact ⟨d, hd, rfl⟩

/-- No steps lead away from a class without supertypes. -/
theorem climb_of_top (hd : env.classes.directSupertypes d = []) {n : Nat}
    (hclimb : env.Climb n (.cls d) u) : u = .cls d := by
  cases n with
  | zero => exact hclimb.symm
  | succ n =>
      obtain ⟨edge, hedge, -⟩ := hclimb
      change edge ∈ env.classes.directSupertypes d at hedge
      rw [hd] at hedge
      cases hedge

/-- The views of an array class have no arguments. -/
theorem array_view (h : w.Orderly) {name : String} {view : Ty}
    (hview : env.View (.cls (.array name c)) r view) : view.isParameterized = false := by
  cases hview with
  | object _ => rfl
  | start _ hstart _ =>
      cases hstart
      rfl
  | walk _ hstart _ hnearest =>
      cases hstart
      obtain ⟨n, hfirst, -⟩ := hnearest
      obtain ⟨⟨edge, hedge, hclimb⟩, -⟩ := Env.climb_of_firstAt h.plainEdges hfirst
      obtain ⟨d, hd, rfl⟩ := array_edge rfl hedge
      rw [instantiated_cls] at hclimb
      rw [climb_of_top (h.tops d hd) hclimb]
      rfl

theorem simple_cases (ht : Simple w t) :
    (∃ d, t = .cls d ∧ w.isClass d ∧ d.isArray = false) ∨
      ∃ d σ, Closed w d σ ∧ t = (env.classes.genericForm d).subst σ := by
  cases ht with
  | primitive hd h => exact Or.inl ⟨_, rfl, hd, isArray_of_primitive h⟩
  | @plain d _ h _ =>
      by_cases hgeneric : env.classes.genericForm d = .cls d
      · exact Or.inl ⟨d, (Registry.isInstance_cls hgeneric).mp h.isInstance, h.isClass, h.isArray⟩
      · obtain ⟨σ, hclosed, hform⟩ := h.closed hgeneric
        exact Or.inr ⟨d, σ, hclosed, hform⟩

section

variable {a : Ty}

theorem holds_array_top (hs : ArrayOver w s a)
    (hd : d ∈ [ClassRef.object, .cloneable, .serializable]) : Holds env s (.cls d) := by
  obtain ⟨hclass, harray⟩ := isClass_top (w := w) hd
  cases hs with
  | ofClass hc =>
      rw [holds_cls_iff rfl]
      exact (isSubclass_array_plain hc rfl hclass harray).mpr hd
  | generic _ _ =>
      obtain ⟨_, _, rfl⟩ := ClassRef.exists_named harray
      exact holds_of_rule (.aboveArrays rfl
        ((isSubclass_array_plain (w.arrayOf _ w.object) rfl hclass harray).mpr hd))

/-- Above an array are, besides arrays, the root class and the two array interfaces. -/
theorem holds_array_simple (h : w.Orderly) (hs : ArrayOver w s a) (ht : Simple w t) :
    Holds env s t ↔ ∃ d ∈ [ClassRef.object, .cloneable, .serializable], t = .cls d := by
  constructor
  · intro hholds
    rcases simple_cases ht with ⟨d, rfl, hd, harray⟩ | ⟨d, σ, hclosed, rfl⟩
    · refine ⟨d, ?_, rfl⟩
      cases hs with
      | ofClass hc =>
          rw [holds_cls_iff rfl] at hholds
          exact (isSubclass_array_plain hc rfl hd harray).mp hholds
      | generic _ _ =>
          cases hholds.rule with
          | equal hsame =>
              obtain ⟨_, hcls, -⟩ := Ty.same_array.mp hsame
              cases hcls
          | toArrayClass hcomponent _ =>
              obtain ⟨_, _, rfl⟩ := ClassRef.exists_named harray
              cases hcomponent
          | aboveArrays _ hsub =>
              exact (isSubclass_array_plain (w.arrayOf _ w.object) rfl hd harray).mp hsub
          | ancestor hraw _ => cases hraw
    · exfalso
      cases hs with
      | ofClass _ =>
          rcases view_of_holds_form hclosed hholds rfl with hsame | ⟨view, -, hview, hparam, -⟩
          · rw [(closed_form hclosed).2, Ty.subst_param] at hsame
            obtain ⟨_, hcls, -⟩ := Ty.same_cls.mp hsame
            cases hcls
          · rw [array_view h hview] at hparam
            cases hparam
      | generic _ _ =>
          rw [(closed_form hclosed).2, Ty.subst_param] at hholds
          cases hholds.rule with
          | equal hsame =>
              obtain ⟨_, harray, -⟩ := Ty.same_array.mp hsame
              cases harray
          | parameterized hraw _ _ _ _ => cases hraw
  · rintro ⟨d, hd, rfl⟩
    exact holds_array_top hs hd

end

/-- The classes above all arrays have no other class above them than the root class. -/
theorem above_arrays (h : w.Orderly) (hc : c ∈ [ClassRef.object, .cloneable, .serializable])
    (ht : Simple w t) (hst : Holds env (.cls c) t) :
    t = .cls c ∨ t = .object := by
  have hclass := (isClass_top (w := w) hc).1
  rcases simple_cases ht with ⟨d, rfl, hd, harray⟩ | ⟨d, σ, hclosed, rfl⟩
  · rcases isSubclass_of_top h hc harray ((holds_cls_iff rfl).mp hst) with hname | hobject
    · rw [← class_unique hclass hd hname]
      exact Or.inl rfl
    · rw [eq_object_of_isObject hd hobject]
      exact Or.inr rfl
  · exfalso
    have hsub := isSubclass_of_holds rfl (closed_raw hclosed) hst
    rcases isSubclass_of_top h hc hclosed.isArray hsub with hname | hobject
    · obtain rfl := class_unique hclass hclosed.isClass hname
      exact not_holds_cls_form hclosed hst
    · rcases view_of_holds_form hclosed hst rfl with hsame | ⟨view, -, hview, hparam, -⟩
      · rw [(closed_form hclosed).2, Ty.subst_param] at hsame
        obtain ⟨_, hcls, -⟩ := Ty.same_cls.mp hsame
        cases hcls
      · have hshortcut : (d.isObject && !(Ty.cls c).isPrimitive) = true := by
          simp only [List.mem_cons, List.not_mem_nil, or_false] at hc
          rw [hobject]
          rcases hc with rfl | rfl | rfl <;> rfl
        obtain rfl := Env.view_unique hview (.object hshortcut)
        cases hparam

/-! ## Array levels -/

/-- Array levels over a type of a class that is no array, whatever the array
classes are named. If `named`, they are named after their components. -/
inductive Stacked (w : Vocabulary env) (named : Prop) : Ty → Prop where
  | base {a} (h : Simple w a) : Stacked w named a
  | array {a component} (h : ArrayOver w a component) (hnamed : named → a = component.arrayOf)
      (hcomponent : Stacked w named component) : Stacked w named a

section

variable {named : Prop}

theorem Stacked.writes (h : Stacked w named t) : w.Writes t := by
  induction h with
  | base h => exact h.writes
  | array h _ _ ih =>
      cases h with
      | generic _ _ => exact .array ih
      | ofClass hc => exact .cls hc

theorem stacked_isWildcard (h : Stacked w named t) : t.isWildcard = false := by
  cases h with
  | base h =>
      obtain ⟨c, hraw, -⟩ := h.raw
      cases t with
      | wild _ _ => cases hraw
      | _ => rfl
  | array h _ _ =>
      cases h with
      | generic _ _ => rfl
      | ofClass _ => rfl

theorem Stacked.closed (h : Stacked w named t) : env.upperBounds? t = none := by
  cases h with
  | base h =>
      obtain ⟨c, hraw, -⟩ := h.raw
      exact Env.upperBounds?_of_raw? hraw
  | array h _ _ =>
      cases h with
      | generic _ _ => rfl
      | ofClass _ => rfl

theorem stacked_class (hc : w.isClass c) (harray : c.isArray = false)
    (h : env.classes.genericForm c = .cls c) (hcoherent : env.Coherent (.cls c)) :
    Stacked w named (.cls c) := by
  cases hprimitive : c.isPrimitive with
  | true => exact .base (.primitive hc hprimitive)
  | false => exact .base (.plain (plain_cls hc harray hprimitive h) hcoherent)

theorem stacked_arrayClass {name : String} (hc : w.isClass (.array name c))
    (h : Stacked w w.NamedArrays (.cls c)) : Stacked w w.NamedArrays (.cls (.array name c)) := by
  refine .array (.ofClass hc) ?_ h
  intro hnamed
  obtain rfl := hnamed name c hc
  rfl

theorem stacked_arrayOf (h : Stacked w named t) : Stacked w named t.arrayOf :=
  .array (arrayOver_arrayOf h.writes (stacked_isWildcard h)) (fun _ => rfl) h

/-- An array of a primitive is below itself only. -/
theorem eq_of_primitive_array {a b : Ty} (hs : ArrayOver w s a) (ht : ArrayOver w t b)
    (hb : Stacked w named b) (ha : a.isPrimitive = true) (hst : Holds env s t) : s = t := by
  cases hs with
  | generic _ hclass =>
      cases a with
      | cls c => exact absurd rfl (hclass c)
      | _ => cases ha
  | @ofClass _ c hc =>
      have hsimple : Simple w (.cls c) := .primitive (w.component _ hc _ rfl) ha
      cases ht with
      | generic _ hclass =>
          have hbelow := (holds_class_array rfl).mp hst
          cases hb with
          | base hb =>
              obtain ⟨d, rfl, -⟩ := Ty.same_cls.mp
                (same_of_primitive (w.component _ hc _ rfl) ha hb hbelow)
              exact absurd rfl (hclass d)
          | array hb _ _ => exact absurd hbelow (not_holds_array hsimple hb)
      | ofClass hd =>
          rw [holds_cls_iff rfl, Env.isSubclass_arrays (isObject_of_isArray hd rfl)] at hst
          rcases hst with hname | ⟨hnot, -⟩
          · rw [class_unique hc hd hname]
          · cases ha.symm.trans hnot

/-- Subtyping is transitive between array levels over types of classes. -/
theorem stacked_trans (h : w.Orderly) (hs : Stacked w named s) (ht : Stacked w named t)
    (hu : Stacked w named u) (hst : Holds env s t) (htu : Holds env t u) : Holds env s u := by
  induction hu generalizing s t with
  | base hu =>
      cases ht with
      | base ht =>
          cases hs with
          | base hs => exact simple_trans h hs ht hu hst htu
          | array hs _ _ =>
              obtain ⟨c, hc, rfl⟩ := (holds_array_simple h hs ht).mp hst
              rcases above_arrays h hc hu htu with rfl | rfl
              · exact hst
              · exact holds_array_top hs List.mem_cons_self
      | array ht _ _ =>
          have habove := (holds_array_simple h ht hu).mp htu
          cases hs with
          | base hs => exact absurd hst (not_holds_array hs ht)
          | array hs _ _ => exact (holds_array_simple h hs hu).mpr habove
  | array hu _ hcomponent ih =>
      cases ht with
      | base ht => exact absurd htu (not_holds_array ht hu)
      | @array _ b ht _ hb =>
          cases hs with
          | base hs => exact absurd hst (not_holds_array hs ht)
          | @array _ a hs _ ha =>
              cases hprimitive : a.isPrimitive with
              | true =>
                  rw [eq_of_primitive_array hs ht hb hprimitive hst]
                  exact htu
              | false =>
                  exact holds_of_component hs hu hprimitive
                    (ih ha hb (holds_component hs ht hst) (holds_component ht hu htu))

/-- Subtyping is antisymmetric between array levels whose classes are named after
their components. -/
theorem stacked_antisymm (h : w.Orderly) (hname : named) (hs : Stacked w named s)
    (ht : Stacked w named t) (hst : Holds env s t) (hts : Holds env t s) : Same s t := by
  induction hs generalizing t with
  | base hs =>
      cases ht with
      | base ht => exact simple_antisymm h hs ht hst hts
      | array ht _ _ => exact absurd hst (not_holds_array hs ht)
  | array hs hnamed ha ih =>
      cases ht with
      | base ht => exact absurd hts (not_holds_array ht hs)
      | array ht hnamed' hb =>
          rw [hnamed hname, hnamed' hname]
          exact Ty.same_arrayOf ha.writes.writable
            (ih hb (holds_component hs ht hst) (holds_component ht hs hts))

end

section

variable (hcoherent : ∀ c, w.isClass c → env.classes.genericForm c = .cls c →
  env.Coherent (.cls c))

include hcoherent

/-- A class about which nothing is generic has array levels, if all ways up agree from such
classes. -/
theorem stacked_cls (hc : w.isClass c) (h : env.classes.genericForm c = .cls c) :
    Stacked w w.NamedArrays (.cls c) :=
  cls_induction (fun _ hc harray h => stacked_class hc harray h (hcoherent _ hc h))
    (fun _ _ => stacked_arrayClass) hc h

/-- An instance of a generic form has array levels, if all ways up agree from the instances
with the same arguments. -/
theorem stacked_form {σ : Substitution} (hclosing : w.Closing σ)
    (hforms : ∀ c, w.isClass c →
      (∀ v, Ty.Occurs v (env.classes.genericForm c) → (σ.get? v).isSome = true) →
      env.Coherent ((env.classes.genericForm c).subst σ))
    (hc : w.isClass c)
    (hbound : ∀ v, Ty.Occurs v (env.classes.genericForm c) → (σ.get? v).isSome = true) :
    Stacked w w.NamedArrays ((env.classes.genericForm c).subst σ) := by
  refine form_induction (fun _ hc _ h => stacked_cls hcoherent hc h) ?_
    (fun _ _ => stacked_arrayClass) (fun _ => stacked_arrayOf) hc hbound
  intro c hc harray hgeneric hbound
  exact .base (.plain (plain_form ⟨hc, harray, hgeneric, hclosing, hbound⟩) (hforms c hc hbound))

end

/-- Ground types have array levels over a type of a class that is no array. -/
theorem stacked_of_ground (h : w.Orderly) (ht : w.Ground t) : Stacked w w.NamedArrays t := by
  have hcoherent : ∀ c, w.isClass c → env.classes.genericForm c = .cls c →
      env.Coherent (.cls c) := fun c hc hform => h.coherent _ (.cls hc hform)
  induction ht with
  | primitive hc hprimitive => exact .base (.primitive hc hprimitive)
  | cls hc hform => exact stacked_cls hcoherent hc hform
  | form hc hbound hground hreference ih =>
      exact stacked_form hcoherent (fun v t hget => ⟨(ih v t hget).writes, (ih v t hget).closed⟩)
        (fun _ hc hbound => h.coherent _ (.form hc hbound hground hreference)) hc hbound
  | array _ ih => exact stacked_arrayOf ih

/-- Between ground types assignability is a partial order, as far as no limit
is met on the way from end to end. What array classes are named matters only to
whether types that are assignable to each other are equal. -/
theorem isAssignable_partialOrder (h : w.Orderly) {a b c : Ty} (ha : w.Ground a)
    (hb : w.Ground b) (hc : w.Ground c) :
    (env.isAssignable b a = true → env.isAssignable c b = true →
      ((env.checkAssignable c a).run .fresh).2.hits = 0 → env.isAssignable c a = true) ∧
    (w.NamedArrays → env.isAssignable b a = true → env.isAssignable a b = true →
      (a == b) = true) := by
  have hsa := stacked_of_ground h ha
  have hsb := stacked_of_ground h hb
  have hsc := stacked_of_ground h hc
  have hholds : ∀ {s t : Ty}, Stacked w w.NamedArrays s → Stacked w w.NamedArrays t →
      env.isAssignable t s = true → Holds env s t := fun hs ht =>
    Env.holds_of_isAssignable hs.writes ht.writes (stacked_isWildcard hs) (stacked_isWildcard ht)
  constructor
  · intro hab hbc hhits
    apply Env.isAssignable_of_holds hsa.writes hsc.writes (stacked_isWildcard hsa)
      (stacked_isWildcard hsc) hhits
    exact stacked_trans h hsa hsb hsc (hholds hsa hsb hab) (hholds hsb hsc hbc)
  · intro hnamed hab hba
    exact stacked_antisymm h hnamed hsa hsb (hholds hsa hsb hab) (hholds hsb hsa hba)

/-! ## A flat registry -/

section

variable
  (htops : ∀ d ∈ [ClassRef.object, .cloneable, .serializable],
    env.classes.directSupertypes d = [])

include htops

theorem edges_of_top (hc : w.isClass c) (hd : d ∈ [ClassRef.object, .cloneable, .serializable])
    (hname : c.name = d.name) : env.classes.directSupertypes c = [] := by
  rw [class_unique hc (isClass_top hd).1 hname, htops d hd]

variable
  (hflat : ∀ entry ∈ env.classes.decls.toList, ∀ e ∈ entry.2.supertypes,
    ∃ d ∈ [ClassRef.object, .cloneable, .serializable], e = .cls d)

omit htops in
include hflat in
theorem edge_of_flat {e : Ty} (he : e ∈ env.classes.directSupertypes c) :
    ∃ d ∈ [ClassRef.object, .cloneable, .serializable], e = .cls d := by
  cases harray : c.isArray with
  | true => exact array_edge harray he
  | false => exact Registry.forall_edges hflat harray e he

include hflat

theorem climb_of_flat {n : Nat} (hclimb : env.Climb (n + 1) t u) :
    ∃ d ∈ [ClassRef.object, .cloneable, .serializable], u = .cls d := by
  obtain ⟨e, he, hrest⟩ := hclimb
  obtain ⟨d, hd, rfl⟩ := edge_of_flat hflat he
  rw [instantiated_cls] at hrest
  exact ⟨d, hd, climb_of_top (htops d hd) hrest⟩

/-- In a flat registry all ways up agree. -/
theorem coherent_of_flat (ht : w.Writes t) : env.Coherent t := by
  intro m n u v hu hv heq
  have hclass := erase_writes ht
  rw [ClassRef.beq_iff_name] at heq
  cases m with
  | zero =>
      obtain rfl : t = u := hu
      cases n with
      | zero =>
          obtain rfl : t = v := hv
          exact Ty.same_refl t
      | succ n =>
          obtain ⟨d, hd, rfl⟩ := climb_of_flat htops hflat hv
          obtain ⟨e, he, -⟩ := hv
          rw [edges_of_top htops hclass hd heq] at he
          cases he
  | succ m =>
      obtain ⟨d, hd, rfl⟩ := climb_of_flat htops hflat hu
      cases n with
      | zero =>
          obtain rfl : t = v := hv
          obtain ⟨e, he, -⟩ := hu
          rw [edges_of_top htops hclass hd heq.symm] at he
          cases he
      | succ n =>
          obtain ⟨e, -, rfl⟩ := climb_of_flat htops hflat hv
          exact Ty.same_cls.mpr ⟨e, rfl, heq⟩

end

/-- A registry in which all declared edges lead to classes at the top is orderly. -/
theorem orderly_of_flat
    (hforms : ∀ d ∈ [ClassRef.object, .cloneable, .serializable],
      env.classes.genericForm d = .cls d)
    (htops : ∀ d ∈ [ClassRef.object, .cloneable, .serializable],
      env.classes.directSupertypes d = [])
    (hflat : ∀ entry ∈ env.classes.decls.toList, ∀ e ∈ entry.2.supertypes,
      ∃ d ∈ [ClassRef.object, .cloneable, .serializable], e = .cls d) : w.Orderly := by
  refine ⟨?_, ?_, fun t ht => coherent_of_flat htops hflat ht.writes, htops⟩
  · intro c _ e he
    obtain ⟨d, hd, rfl⟩ := edge_of_flat hflat he
    refine ⟨d, ?_, (Registry.isInstance_cls (hforms d hd)).mpr rfl⟩
    simp only [List.mem_cons, List.not_mem_nil, or_false] at hd
    rcases hd with rfl | rfl | rfl <;> rfl
  · rintro c n hc - ⟨above, habove, hpath⟩
    obtain ⟨e, he, rfl⟩ := List.mem_map.mp habove
    obtain ⟨d, hd, rfl⟩ := edge_of_flat hflat he
    have hdpath : env.RawPath n d c := hpath
    cases n with
    | zero =>
        rw [edges_of_top htops hc hd hdpath.symm] at he
        cases he
    | succ n =>
        obtain ⟨above', habove', -⟩ := hdpath
        rw [Env.rawSupertypes, htops d hd] at habove'
        cases habove'

theorem flat_of_edges {n : Nat}
    (h : env.classes.decls.toList.flatMap (fun entry => entry.2.supertypes) =
      List.replicate n .object) :
    ∀ entry ∈ env.classes.decls.toList, ∀ e ∈ entry.2.supertypes,
      ∃ d ∈ [ClassRef.object, .cloneable, .serializable], e = .cls d := by
  have hobject : ∀ e ∈ List.replicate n Ty.object,
      ∃ d ∈ [ClassRef.object, .cloneable, .serializable], e = .cls d :=
    fun e he => ⟨.object, List.mem_cons_self, List.eq_of_mem_replicate he⟩
  exact Registry.forall_supertypes h hobject

/-- Without handles of array classes in the table, array classes are named after
their components. -/
theorem namedArrays_ofRegular {handle : String → ClassRef} {vars : List TyVar}
    (hregular : env.Regular handle vars) (hhandle : ∀ name, (handle name).isArray = false) :
    (Vocabulary.ofRegular hregular).NamedArrays := by
  intro name component hc
  rcases ClassRef.regular_cases hc with ⟨-, hkind⟩ | ⟨component', harray⟩
  · have hnamed := hhandle name
    change ClassRef.sameKind _ (handle name) = true at hkind
    cases hname : handle name with
    | named _ _ =>
        rw [hname] at hkind
        cases hkind
    | array _ _ =>
        rw [hname] at hnamed
        cases hnamed
  · cases harray
    rfl

theorem handle_isArray {registry : Registry}
    (h : ∀ entry ∈ registry.decls.toList, entry.2.ref.isArray = false) (name : String) :
    (registry.handle name).isArray = false := by
  unfold Registry.handle Registry.get?
  cases hd : registry.decls[name]? with
  | none => rfl
  | some d => exact h (name, d) (Std.TreeMap.mem_toList_iff_getElem?_eq_some.mpr hd)

def boxClass : ClassRef := .named "Box" .ordinary

def boxVar : TyVar := ⟨0, .ofClass boxClass, "T"⟩

def stringClass : ClassRef := .named "java.lang.String" .ordinary

def boxEnv : Env :=
  ⟨(Registry.core.register (.of stringClass)).register
    ((ClassDecl.of boxClass).withParameters [boxVar]), .empty⟩

theorem boxEnv_regular : boxEnv.Regular boxEnv.classes.handle [boxVar] :=
  Env.regular_of_isRegular (by decide)

/-- Arrays of boxed strings, of objects, and the root class, in ascending order. -/
theorem isAssignable_boxes :
    let boxes := (Ty.param none boxClass [.cls stringClass]).arrayOf
    let objects := Ty.object.arrayOf
    boxEnv.isAssignable objects boxes = true ∧ boxEnv.isAssignable .object objects = true ∧
      boxEnv.isAssignable .object boxes = true ∧ boxEnv.isAssignable boxes objects = false := by
  let w := Vocabulary.ofRegular boxEnv_regular
  have hnamed : w.NamedArrays :=
    namedArrays_ofRegular boxEnv_regular (handle_isArray (by decide))
  have h : w.Orderly := by
    apply orderly_of_flat
    · simp only [List.forall_mem_cons]
      exact ⟨rfl, rfl, rfl, List.forall_mem_nil _⟩
    · simp only [List.forall_mem_cons]
      exact ⟨rfl, rfl, rfl, List.forall_mem_nil _⟩
    · exact flat_of_edges (n := 2) rfl
  have hobject : w.Ground .object := .cls w.object rfl
  have hstring : w.Ground (.cls stringClass) :=
    .cls (show ClassRef.isRegular _ _ = true by decide) rfl
  have hbound : ∀ v t, Substitution.get? ⟨[(boxVar, .cls stringClass)]⟩ v = some t →
      t = .cls stringClass := by
    intro v t hget
    obtain ⟨_, hmem, -⟩ := Substitution.mem_of_get? hget
    exact (Prod.mk.inj (List.mem_singleton.mp hmem)).2
  have hbox : w.Ground
      ((boxEnv.classes.genericForm boxClass).subst ⟨[(boxVar, .cls stringClass)]⟩) := by
    apply Ground.form (show ClassRef.isRegular _ _ = true by decide)
    · intro v hv
      have hform : Ty.Occurs v (.param none boxClass [.var boxVar]) := hv
      cases hform with
      | arg hmem hoccurs =>
          obtain rfl := List.mem_singleton.mp hmem
          cases hoccurs with
          | var heq => simp [Substitution.get?_cons, heq]
    · intro v t hget
      rw [hbound v t hget]
      exact hstring
    · intro v t hget
      rw [hbound v t hget]
      rfl
  obtain ⟨htrans, hantisymm⟩ := isAssignable_partialOrder h hbox.array hobject.array hobject
  have hbelow : boxEnv.isAssignable Ty.object.arrayOf
      (Ty.param none boxClass [.cls stringClass]).arrayOf = true := by decide
  have habove : boxEnv.isAssignable .object Ty.object.arrayOf = true := by decide
  refine ⟨hbelow, habove, htrans hbelow habove (by decide), ?_⟩
  rw [← Bool.not_eq_true]
  intro hback
  exact absurd (hantisymm hnamed hbelow hback) (by decide)

/-! ## An array class with a name of its own -/

def textClass : ClassRef := .array "Text" stringClass

def textEnv : Env :=
  ⟨(Registry.core.register (.of stringClass)).register (.of textClass), .empty⟩

theorem textEnv_regular : textEnv.Regular textEnv.classes.handle [] :=
  Env.regular_of_isRegular (by decide)

/-- An array class with a name of its own is above and below the one that is
named after the component, and not equal to it. -/
theorem isAssignable_namedArray : ¬∀ (env : Env) (w : Vocabulary env) (a b : Ty), w.Orderly →
    w.Ground a → w.Ground b → env.isAssignable b a = true → env.isAssignable a b = true →
    (a == b) = true := by
  intro hclaim
  let w := Vocabulary.ofRegular textEnv_regular
  have h : w.Orderly := by
    apply orderly_of_flat
    · simp only [List.forall_mem_cons]
      exact ⟨rfl, rfl, rfl, List.forall_mem_nil _⟩
    · simp only [List.forall_mem_cons]
      exact ⟨rfl, rfl, rfl, List.forall_mem_nil _⟩
    · exact flat_of_edges (n := 1) rfl
  have htext : w.Ground (.cls textClass) :=
    .cls (show ClassRef.isRegular _ _ = true by decide) rfl
  have hstrings : w.Ground (.cls (.arrayOf stringClass)) :=
    .cls (show ClassRef.isRegular _ _ = true by decide) rfl
  have hsame := hclaim textEnv w _ _ h htext hstrings (by decide) (by decide)
  exact absurd hsame (by decide)

end Generics.Subtyping
