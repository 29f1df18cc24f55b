import Generics.Proofs.Checking
import Generics.Proofs.Ground

/-!
Assignability is a partial order on ground types. Between types of classes that
are no arrays a class target asks for raw ancestry and a parameterized target
for a view equal to it, so that the steps of the hierarchy compose; arrays
follow their components, and meet other types only below the root class and the
two array interfaces.
-/

namespace Generics.Subtyping

open Vocabulary
open Ty (Same)

variable {env : Env} {w : Vocabulary env} {s t u : Ty} {c d r : ClassRef}

/-! ## Class targets -/

theorem holds_cls_iff (hs : s.raw? = some c) :
    Holds env s (.cls d) ↔ env.isSubclass c d = true := by
  constructor
  · intro h
    cases h.rule with
    | equal hsame =>
        cases s with
        | cls e =>
            obtain ⟨d', hd', hname⟩ := Ty.same_cls.mp hsame
            cases hd'
            obtain rfl := Option.some.inj hs
            exact Env.isSubclass_of_name hname
        | param _ _ _ =>
            obtain ⟨_, _, _, hd', -⟩ := Ty.same_param.mp hsame
            cases hd'
        | _ => cases hs
    | upper _ _ _ => cases hs
    | bound _ _ _ => cases hs
    | toArrayClass _ _ => cases hs
    | aboveArrays _ _ => cases hs
    | ancestor hs' h =>
        obtain rfl := Option.some.inj (hs.symm.trans hs')
        exact h
  · exact fun h => holds_of_rule (.ancestor hs h)

/-! ## Parameterized targets -/

/-- A view without arguments is below no instance of a generic form: the
parameters that stand in their places are not ground. -/
theorem not_raw_view {X : Ty → Ty → Prop} {outerForm : ClassRef → Ty} {σ : Substitution}
    {view : Ty} (hbare : env.classes.isBare outerForm r = false)
    (hclosed : ∀ v ∈ env.classes.parameters r, env.upperBounds? ((Ty.var v).subst σ) = none)
    (hview : view.isParameterized = false)
    (hargs : List.Forall₂ (Contained X) (viewArgs env r view)
      (((env.classes.parameters r).map Ty.var).map (Ty.subst σ)))
    (howner : Owned env X r view ((env.classes.ownerForm outerForm r).map (Ty.subst σ))) :
    False := by
  have hactuals : viewArgs env r view = (env.classes.parameters r).map Ty.var := by
    cases view with
    | param _ _ _ => cases hview
    | _ => rfl
  rw [hactuals] at hargs
  rcases Registry.generic_cases hbare with ⟨v, vs, hparameters⟩ | ⟨hstatic, outer, hform, -⟩
  · rw [hparameters] at hargs
    have hv := hclosed v (by rw [hparameters]; exact List.mem_cons_self)
    cases hargs with
    | cons hhead _ =>
        generalize (Ty.var v).subst σ = image at hhead hv
        cases hhead with
        | equal hsame =>
            obtain ⟨v', rfl, -⟩ := Ty.same_var.mp hsame
            cases hv
        | bounds _ _ => cases hv
  · rw [hform] at howner
    cases howner with
    | static h =>
        rw [hstatic] at h
        cases h
    | inner hshape _ =>
        subst hshape
        cases hview

theorem same_args {X : Ty → Ty → Prop} {σ τ : Substitution} {vs : List TyVar}
    (hclosed : ∀ v ∈ vs, env.upperBounds? ((Ty.var v).subst τ) = none)
    (h : List.Forall₂ (Contained X) ((vs.map Ty.var).map (Ty.subst σ))
      ((vs.map Ty.var).map (Ty.subst τ))) :
    List.Forall₂ Same ((vs.map Ty.var).map (Ty.subst σ)) ((vs.map Ty.var).map (Ty.subst τ)) := by
  simp only [List.map_map, List.forall₂_map_left_iff, List.forall₂_map_right_iff,
    List.forall₂_same, Function.comp_apply] at h ⊢
  intro v hv
  have hclosedv := hclosed v hv
  have hcontained := h v hv
  generalize (Ty.var v).subst τ = formal at hclosedv hcontained ⊢
  cases hcontained with
  | equal hsame => exact hsame
  | bounds _ _ => cases hclosedv

theorem same_ownerForm {X : Ty → Ty → Prop} {outerForm : ClassRef → Ty} {σ τ : Substitution}
    {args : List Ty}
    (houter : ∀ outer, X ((outerForm outer).subst σ) ((outerForm outer).subst τ) →
      env.classes.ownerForm outerForm r = some (outerForm outer) →
      Same ((outerForm outer).subst σ) ((outerForm outer).subst τ))
    (h : Owned env X r (.param ((env.classes.ownerForm outerForm r).map (Ty.subst σ)) r args)
      ((env.classes.ownerForm outerForm r).map (Ty.subst τ))) :
    Option.Rel Same ((env.classes.ownerForm outerForm r).map (Ty.subst σ))
      ((env.classes.ownerForm outerForm r).map (Ty.subst τ)) := by
  cases henclosing : env.classes.enclosing? r with
  | none =>
      simp only [Registry.ownerForm, henclosing, Option.map_none]
      exact .none
  | some outer =>
      cases hstatic : env.classes.isStatic r with
      | true =>
          simp only [Registry.ownerForm, henclosing, hstatic, Option.map_some, if_true]
          exact .some (Ty.same_refl _)
      | false =>
          have hform : env.classes.ownerForm outerForm r = some (outerForm outer) := by
            simp [Registry.ownerForm, henclosing, hstatic]
          rw [hform] at h ⊢
          cases h with
          | static h =>
              rw [hstatic] at h
              cases h
          | inner hshape h =>
              cases hshape
              exact .some (houter outer h hform)

/-- What is related to an instance of the form that it is an instance of itself,
is equal to it. -/
theorem same_of_holds_form {σ τ : Substitution} (hops : Nat) (c : ClassRef)
    (hclosed : ∀ v, Ty.Occurs v (env.classes.formSteps hops c) →
      env.upperBounds? ((Ty.var v).subst τ) = none)
    (h : Holds env ((env.classes.formSteps hops c).subst σ)
      ((env.classes.formSteps hops c).subst τ)) :
    Same ((env.classes.formSteps hops c).subst σ) ((env.classes.formSteps hops c).subst τ) := by
  induction hops generalizing c with
  | zero => exact Ty.same_refl _
  | succ hops ih =>
      simp only [Registry.formSteps] at hclosed h ⊢
      induction c with
      | array name component ihComponent =>
          rcases Registry.formWithin_array env.classes (env.classes.formSteps hops) name component
            with ⟨-, hform⟩ | ⟨hne, hform⟩
          · rw [hform]
            exact Ty.same_refl _
          · have harrays : ∀ ρ : Substitution,
                ((env.classes.formWithin (env.classes.formSteps hops) component).subst ρ).arrayOf =
                  .array ((env.classes.formWithin (env.classes.formSteps hops) component).subst ρ) :=
              fun ρ => (Registry.arrayOf_formWithin env.classes _ component ρ).resolve_left hne
            rw [hform] at hclosed
            rw [hform, Ty.subst_array, Ty.subst_array, harrays, harrays] at h ⊢
            refine Ty.same_array.mpr ⟨_, rfl, ?_⟩
            cases h.rule with
            | equal hsame =>
                obtain ⟨_, heq, hcomponent⟩ := Ty.same_array.mp hsame
                cases heq
                exact hcomponent
            | components hcomponents =>
                exact ihComponent (fun v hv => hclosed v (.component hv)) hcomponents
      | named name kind =>
          rw [Registry.formWithin_of_plain env.classes _ rfl] at hclosed h ⊢
          generalize ClassRef.named name kind = c at hclosed h ⊢
          cases hbare : env.classes.isBare (env.classes.formSteps hops) c with
          | true => exact Ty.same_refl _
          | false =>
              simp only [hbare, Bool.false_eq_true, if_false, Ty.subst_param] at hclosed h ⊢
              have hargsClosed : ∀ v ∈ env.classes.parameters c,
                  env.upperBounds? ((Ty.var v).subst τ) = none :=
                fun v hv => hclosed v (.arg (List.mem_map.mpr ⟨v, hv, rfl⟩) (Ty.occurs_self v))
              cases h.rule with
              | equal hsame => exact hsame
              | parameterized hraw hsub hview hargs howner =>
                  cases hview with
                  | object _ => exact (not_raw_view hbare hargsClosed rfl hargs howner).elim
                  | walk _ hstart hne _ =>
                      cases hstart
                      rw [Env.erase_of_raw? rfl, BEq.rfl] at hne
                      cases hne
                  | start _ hstart _ =>
                      cases hstart
                      refine Ty.same_param.mpr ⟨_, _, _, rfl, rfl, ?_, ?_⟩
                      · refine same_ownerForm (fun outer hholds hform => ?_) howner
                        exact ih outer (fun v hv => hclosed v (hform ▸ .owner hv)) hholds
                      · exact same_args hargsClosed hargs

/-- A generic form is not equal to an instance without variables. -/
theorem not_same_form {τ : Substitution} (hops : Nat) (c : ClassRef)
    (hclosed : ∀ v, Ty.Occurs v (env.classes.formSteps hops c) →
      env.upperBounds? ((Ty.var v).subst τ) = none)
    (hgeneric : env.classes.formSteps hops c ≠ .cls c) :
    ¬Same (env.classes.formSteps hops c) ((env.classes.formSteps hops c).subst τ) := by
  induction hops generalizing c with
  | zero => exact absurd rfl hgeneric
  | succ hops ih =>
      simp only [Registry.formSteps] at hclosed hgeneric ⊢
      induction c with
      | array name component ihComponent =>
          rcases Registry.formWithin_array env.classes (env.classes.formSteps hops) name component
            with ⟨-, hform⟩ | ⟨hne, hform⟩
          · exact absurd hform hgeneric
          · have harray := Registry.arrayOf_formWithin env.classes (env.classes.formSteps hops)
              component τ
            rw [hform] at hclosed
            rw [hform, Ty.subst_array, harray.resolve_left hne]
            intro hsame
            obtain ⟨_, heq, hcomponent⟩ := Ty.same_array.mp hsame
            cases heq
            exact ihComponent (fun v hv => hclosed v (.component hv)) hne hcomponent
      | named name kind =>
          rw [Registry.formWithin_of_plain env.classes _ rfl] at hclosed hgeneric ⊢
          generalize ClassRef.named name kind = c at hclosed hgeneric ⊢
          cases hbare : env.classes.isBare (env.classes.formSteps hops) c with
          | true => simp [hbare] at hgeneric
          | false =>
              simp only [hbare, Bool.false_eq_true, if_false, Ty.subst_param] at hclosed ⊢
              intro hsame
              obtain ⟨_, _, _, heq, -, howners, hargs⟩ := Ty.same_param.mp hsame
              cases heq
              rcases Registry.generic_cases hbare with
                ⟨v, vs, hparameters⟩ | ⟨-, outer, hform, hgenericOuter⟩
              · rw [hparameters] at hargs
                have hv := hclosed v (.arg (t := .var v)
                  (by simp [hparameters]) (Ty.occurs_self v))
                cases hargs with
                | cons hhead _ =>
                    obtain ⟨v', heq, -⟩ := Ty.same_var.mp hhead
                    rw [heq] at hv
                    cases hv
              · rw [hform] at howners hclosed
                cases howners with
                | some howner =>
                    refine ih outer (fun v hv => hclosed v (.owner hv)) ?_ howner
                    intro hcls
                    rw [hcls] at hgenericOuter
                    cases hgenericOuter

/-! ## Instances without variables -/

section

variable {σ : Substitution}

theorem closed_image (h : Closed w r σ) :
    ∀ v, Ty.Occurs v (env.classes.genericForm r) → env.upperBounds? ((Ty.var v).subst σ) = none := by
  intro v hv
  obtain ⟨t, ht⟩ := Option.isSome_iff_exists.mp (h.bound v hv)
  rw [Ty.subst_var, ht]
  exact (h.closing v t ht).2

theorem closed_isInstance (h : Closed w r σ) :
    env.classes.IsInstance r ((env.classes.genericForm r).subst σ) :=
  ⟨σ, h.closing.writable, rfl⟩

theorem closed_form (h : Closed w r σ) :
    env.classes.isBare (env.classes.formSteps env.classes.size) r = false ∧
      env.classes.genericForm r =
        .param (env.classes.ownerForm (env.classes.formSteps env.classes.size) r) r
          ((env.classes.parameters r).map Ty.var) := by
  have hform := Registry.formWithin_of_plain env.classes
    (env.classes.formSteps env.classes.size) h.isArray
  cases hbare : env.classes.isBare (env.classes.formSteps env.classes.size) r with
  | true =>
      rw [hbare] at hform
      exact absurd hform h.generic
  | false =>
      rw [hbare] at hform
      exact ⟨rfl, hform⟩

theorem closed_parameters (h : Closed w r σ) :
    ∀ v ∈ env.classes.parameters r, env.upperBounds? ((Ty.var v).subst σ) = none := by
  intro v hv
  apply closed_image h
  rw [(closed_form h).2]
  exact .arg (List.mem_map.mpr ⟨v, hv, rfl⟩) (Ty.occurs_self v)

theorem closed_raw (h : Closed w r σ) :
    ((env.classes.genericForm r).subst σ).raw? = some r :=
  raw?_of_isInstance (closed_isInstance h) h.isArray

/-- What is below an instance without variables has a view with arguments. -/
theorem view_of_holds_form (hclosed : Closed w r σ)
    (h : Holds env s ((env.classes.genericForm r).subst σ)) (hs : s.raw? = some c) :
    Same s ((env.classes.genericForm r).subst σ) ∨
      ∃ view, env.isSubclass c r = true ∧ env.View s r view ∧ view.isParameterized = true ∧
        ∀ s', s'.raw? = some r → env.View s' r view →
          Holds env s' ((env.classes.genericForm r).subst σ) := by
  obtain ⟨hbare, hform⟩ := closed_form hclosed
  have hparameters := closed_parameters hclosed
  rw [hform, Ty.subst_param] at h ⊢
  cases h.rule with
  | equal hsame => exact Or.inl hsame
  | upper _ _ _ => cases hs
  | bound _ _ _ => cases hs
  | parameterized hraw hsub hview hargs howner =>
      obtain rfl := Option.some.inj (hs.symm.trans hraw)
      refine Or.inr ⟨_, hsub, hview, ?_, ?_⟩
      · by_contra hparam
        exact not_raw_view hbare hparameters ((Bool.not_eq_true _).mp hparam) hargs howner
      · intro s' hraw' hview'
        exact holds_of_rule
          (.parameterized hraw' (Env.isSubclass_of_name rfl) hview' hargs howner)

theorem view_self (hs : s.raw? = some r) (harray : r.isArray = false)
    (hstart : env.climbStart s = s)
    (hobject : (r.isObject && !s.isPrimitive) = false) : env.View s r s := by
  refine .start hobject ?_ ?_
  · rw [Env.viewStart_eq_climbStart hs harray, hstart]
  · rw [Env.erase_of_raw? hs]
    exact BEq.rfl

/-- A class is below no instance of its form without variables. -/
theorem not_holds_cls_form (hclosed : Closed w r σ) :
    ¬Holds env (.cls r) ((env.classes.genericForm r).subst σ) := by
  intro h
  have hshape := (closed_form hclosed).2
  rcases view_of_holds_form hclosed h rfl with hsame | ⟨view, -, hview, hparam, hviews⟩
  · rw [hshape, Ty.subst_param] at hsame
    obtain ⟨_, hcls, -⟩ := Ty.same_cls.mp hsame
    cases hcls
  · have hstartRaw : (env.classes.genericForm r).raw? = some r :=
      Env.raw?_genericForm hclosed.isArray
    cases hview with
    | object _ => cases hparam
    | walk _ hstart hne _ =>
        rw [Env.viewStart_eq_climbStart rfl hclosed.isArray] at hstart
        cases hstart
        rw [Env.climbStart, Env.erase_of_raw? hstartRaw, BEq.rfl] at hne
        cases hne
    | start hobject hstart _ =>
        rw [Env.viewStart_eq_climbStart rfl hclosed.isArray] at hstart
        cases hstart
        -- the view is the form, which would then be below its own instance
        have hreference : r.isObject = false := by
          cases hroot : r.isObject with
          | false => rfl
          | true =>
              rw [hroot, eq_object_of_isObject hclosed.isClass hroot] at hobject
              cases hobject
        have hself : env.View (env.classes.genericForm r) r (env.classes.genericForm r) := by
          apply view_self hstartRaw hclosed.isArray
          · rw [hshape]
            rfl
          · rw [hreference]
            rfl
        have hbelow := hviews _ hstartRaw hself
        have hempty : (env.classes.formSteps (env.classes.size + 1) r).subst .empty =
            env.classes.formSteps (env.classes.size + 1) r :=
          Registry.formSteps_subst_empty _ r
        have hsame : Same ((env.classes.genericForm r).subst .empty)
            ((env.classes.genericForm r).subst σ) := by
          apply same_of_holds_form _ r (closed_image hclosed)
          rw [hempty]
          exact hbelow
        change Same ((env.classes.formSteps (env.classes.size + 1) r).subst .empty) _ at hsame
        rw [hempty] at hsame
        exact not_same_form _ r (closed_image hclosed) hclosed.generic hsame

end

/-! ## Types of classes that are no arrays -/

/-- An instance of a generic form that is no bare primitive, with its class. -/
structure Plain (w : Vocabulary env) (c : ClassRef) (s : Ty) : Prop where
  isClass : w.isClass c
  isArray : c.isArray = false
  isInstance : env.classes.IsInstance c s
  writes : w.Writes s
  isPrimitive : s.isPrimitive = false
  start : env.climbStart s = s
  closed : env.classes.genericForm c ≠ .cls c →
    ∃ σ, Closed w c σ ∧ s = (env.classes.genericForm c).subst σ

theorem Plain.raw (h : Plain w c s) : s.raw? = some c :=
  raw?_of_isInstance h.isInstance h.isArray

/-- A view equal to a parameterized target is below it. -/
theorem holds_of_view {owner : Option Ty} {args : List Ty} (hs : s.raw? = some c)
    (hsub : env.isSubclass c r = true) {view : Ty} (hview : env.View s r view)
    (hsame : Same view (.param owner r args)) : Holds env s (.param owner r args) := by
  cases view with
  | param viewOwner viewRaw viewArgs =>
      obtain ⟨_, _, _, heq, -, howners, hargs⟩ := Ty.same_param.mp hsame
      cases heq
      apply holds_of_rule
      refine .parameterized hs hsub hview (hargs.imp fun _ _ => .equal) ?_
      cases howners with
      | none => exact .absent
      | some h => exact .inner rfl (holds_of_same h)
  | _ => exact absurd hsame (by simp [Same, BEq.beq, Ty.beq])

/-- Types related by subtyping have related raw classes. -/
theorem isSubclass_of_holds (hs : s.raw? = some c) (ht : t.raw? = some d)
    (h : Holds env s t) : env.isSubclass c d = true := by
  cases t with
  | cls e =>
      obtain rfl := Option.some.inj ht
      exact (holds_cls_iff hs).mp h
  | param owner e args =>
      obtain rfl := Option.some.inj ht
      cases h.rule with
      | equal hsame =>
          obtain ⟨d', hd', hname⟩ := Env.raw?_of_same hsame hs
          cases hd'
          exact Env.isSubclass_of_name hname
      | upper _ _ _ => cases hs
      | bound _ _ _ => cases hs
      | parameterized hraw hsub _ _ _ =>
          obtain rfl := Option.some.inj (hs.symm.trans hraw)
          exact hsub
  | _ => cases ht

/-- Steps lead to a type or to one equal to it. -/
def Reaches (w : Vocabulary env) (s t : Ty) : Prop :=
  ∃ n u, env.Climb n s u ∧ w.Alike u t

theorem reaches_alike (hs : w.Writes s) (ht : w.Writes t) (h : Same s t) : Reaches w s t :=
  ⟨0, s, rfl, hs, ht, h⟩

theorem Reaches.trans (hst : Reaches w s t) (htu : Reaches w t u) : Reaches w s u := by
  obtain ⟨m, t', hst, ht⟩ := hst
  obtain ⟨n, u', htu, hu⟩ := htu
  obtain ⟨u'', hclimb, hu'⟩ := climb_alike htu (alike_symm ht)
  exact ⟨m + n, u'', hst.trans hclimb, alike_trans (alike_symm hu') hu⟩

/-- Steps between instances that end in one class end in an instance of its form. -/
theorem Plain.climb (h : w.Orderly) (hs : Plain w c s) (hd : w.isClass d) {n : Nat}
    (hclimb : env.Climb n s u) (hname : (env.erase u).name = d.name) :
    env.classes.IsInstance d u ∧ u.raw? = some d ∧ w.Writes u := by
  obtain ⟨e, he, hinstance, hwrites⟩ :=
    isInstance_of_climb h hclimb hs.writes hs.isInstance hs.isArray
  have hraw := raw?_of_isInstance hinstance he
  have herase := erase_writes hwrites
  rw [Env.erase_of_raw? hraw] at herase hname
  obtain rfl := class_unique herase hd hname
  exact ⟨hinstance, hraw, hwrites⟩

/-- What a type is below is reached by steps, the root class apart. -/
theorem reaches_of_holds (h : w.Orderly) (hs : Plain w c s) (ht : Plain w d t)
    (hobject : d.isObject = false) (hst : Holds env s t) : Reaches w s t := by
  have hsub := isSubclass_of_holds hs.raw ht.raw hst
  by_cases hgeneric : env.classes.genericForm d = .cls d
  · have hcls := (Registry.isInstance_cls hgeneric).mp ht.isInstance
    by_cases hname : c.name = d.name
    · have hc := class_unique hs.isClass ht.isClass hname
      have hscls := (Registry.isInstance_cls hgeneric).mp (hc ▸ hs.isInstance)
      rw [hcls, hscls]
      exact ⟨0, .cls d, rfl, alike_refl (.cls ht.isClass)⟩
    · obtain ⟨hcprimitive, hdprimitive⟩ := Env.isPrimitive_of_isSubclass hsub hname
      obtain ⟨n, hpath⟩ := (Env.isSubclass_iff_rawPath h.plainEdges
        (ClassRef.isPlain_iff.mpr ⟨hs.isArray, hcprimitive⟩)
        (ClassRef.isPlain_iff.mpr ⟨ht.isArray, hdprimitive⟩) hobject).mp hsub
      obtain ⟨u, e, hclimb, he, hename⟩ := Env.climb_of_rawPath h.plainEdges hpath hs.raw
      have hinstance := (hs.climb h ht.isClass hclimb (by rw [Env.erase_of_raw? he, hename])).1
      obtain rfl := (Registry.isInstance_cls hgeneric).mp hinstance
      rw [hcls]
      exact ⟨n, _, hclimb, alike_refl (.cls ht.isClass)⟩
  · obtain ⟨σ, hclosed, rfl⟩ := ht.closed hgeneric
    rcases view_of_holds_form hclosed hst hs.raw with hsame | ⟨view, -, hview, -, hviews⟩
    · exact reaches_alike hs.writes ht.writes hsame
    · obtain ⟨n, hclimb, hroot⟩ :=
        Env.climb_of_view h.plainEdges hs.raw hs.isArray hobject hview
      rw [hs.start] at hclimb
      obtain ⟨⟨ρ, -, rfl⟩, hraw, hwrites⟩ :=
        hs.climb h ht.isClass hclimb (ClassRef.beq_iff_name.mp hroot)
      refine ⟨n, _, hclimb, hwrites, ht.writes, ?_⟩
      apply same_of_holds_form _ d (closed_image hclosed)
      apply hviews _ hraw
      apply view_self hraw ht.isArray
      · rw [(closed_form hclosed).2, Ty.subst_param]
        rfl
      · rw [hobject]
        rfl

/-- What is reached by steps is above, since the view is an equal one. -/
theorem holds_of_reaches (h : w.Orderly) (hs : Plain w c s) (ht : Plain w d t)
    (hcoherent : env.Coherent s) (hobject : d.isObject = false)
    (hsub : env.isSubclass c d = true) (hreach : Reaches w s t) : Holds env s t := by
  obtain ⟨n, u, hclimb, hu⟩ := hreach
  by_cases hgeneric : env.classes.genericForm d = .cls d
  · rw [(Registry.isInstance_cls hgeneric).mp ht.isInstance]
    exact (holds_cls_iff hs.raw).mpr hsub
  · obtain ⟨σ, hclosed, rfl⟩ := ht.closed hgeneric
    have hroot : (env.erase u == d) = true := by
      rw [erase_alike hu, Env.erase_of_raw? ht.raw]
      exact BEq.rfl
    have hclimbStart : env.Climb n (env.climbStart s) u := by rwa [hs.start]
    obtain ⟨view, hview⟩ := Env.view_of_climb h.plainEdges hs.raw hs.isArray ht.isArray
      hobject hsub hclimbStart hroot
    obtain ⟨m, hclimbView, hviewRoot⟩ :=
      Env.climb_of_view h.plainEdges hs.raw hs.isArray hobject hview
    rw [hs.start] at hclimbView
    have hsame : Same view u :=
      hcoherent m n view u hclimbView hclimb (BEq.trans hviewRoot (BEq.symm hroot))
    have hview' := Ty.same_trans hsame hu.2.2
    rw [(closed_form hclosed).2, Ty.subst_param] at hview' ⊢
    exact holds_of_view hs.raw hsub hview hview'

/-! ## The order -/

/-- Primitive classes, and instances of generic forms from which all ways up agree. -/
inductive Simple (w : Vocabulary env) : Ty → Prop where
  | primitive {raw} (hraw : w.isClass raw) (h : raw.isPrimitive = true) : Simple w (.cls raw)
  | plain {raw a} (h : Plain w raw a) (hcoherent : env.Coherent a) : Simple w a

theorem Simple.writes (h : Simple w s) : w.Writes s := by
  cases h with
  | primitive hc _ => exact .cls hc
  | plain h _ => exact h.writes

theorem Simple.raw (h : Simple w s) : ∃ c, s.raw? = some c ∧ w.isClass c ∧ c.isArray = false := by
  cases h with
  | primitive hc h => exact ⟨_, rfl, hc, isArray_of_primitive h⟩
  | plain h _ => exact ⟨_, h.raw, h.isClass, h.isArray⟩

theorem plain_cls (hc : w.isClass c) (harray : c.isArray = false)
    (hreference : c.isPrimitive = false) (h : env.classes.genericForm c = .cls c) :
    Plain w c (.cls c) :=
  ⟨hc, harray, (Registry.isInstance_cls h).mpr rfl, .cls hc, hreference, h,
    fun hgeneric => absurd h hgeneric⟩

theorem plain_form {σ : Substitution} (h : Closed w c σ) :
    Plain w c ((env.classes.genericForm c).subst σ) := by
  have hshape : ((env.classes.genericForm c).subst σ).isPrimitive = false ∧
      env.climbStart ((env.classes.genericForm c).subst σ) =
        (env.classes.genericForm c).subst σ := by
    rw [(closed_form h).2, Ty.subst_param]
    exact ⟨rfl, rfl⟩
  exact ⟨h.isClass, h.isArray, closed_isInstance h, h.writes, hshape.1, hshape.2,
    fun _ => ⟨σ, h, rfl⟩⟩

theorem same_of_primitive (hc : w.isClass c) (hprimitive : c.isPrimitive = true)
    (ht : Simple w t) (h : Holds env (.cls c) t) : Same (.cls c) t := by
  obtain ⟨d, hraw, hd, -⟩ := ht.raw
  obtain rfl := eq_of_primitive_class hc hd (Or.inl hprimitive) (isSubclass_of_holds rfl hraw h)
  cases ht with
  | primitive _ _ =>
      obtain rfl := Option.some.inj hraw
      exact Ty.same_refl _
  | plain ht _ =>
      obtain rfl := Option.some.inj (hraw.symm.trans ht.raw)
      by_cases hgeneric : env.classes.genericForm c = .cls c
      · rw [(Registry.isInstance_cls hgeneric).mp ht.isInstance]
        exact Ty.same_refl _
      · obtain ⟨σ, hclosed, rfl⟩ := ht.closed hgeneric
        exact absurd h (not_holds_cls_form hclosed)

/-- The view as the root class has no arguments: only equal types are below an
instance of a generic root class. -/
theorem same_of_holds_root (hs : Plain w c s) (ht : Plain w d t) (hroot : d.isObject = true)
    (hgeneric : env.classes.genericForm d ≠ .cls d) (hst : Holds env s t) : Same s t := by
  obtain ⟨σ, hclosed, rfl⟩ := ht.closed hgeneric
  rcases view_of_holds_form hclosed hst hs.raw with hsame | ⟨view, -, hview, hparam, -⟩
  · exact hsame
  · have hshortcut : (d.isObject && !s.isPrimitive) = true := by
      rw [hroot, hs.isPrimitive]
      rfl
    obtain rfl := Env.view_unique hview (.object hshortcut)
    cases hparam

/-- Nothing is above the root class. -/
theorem same_of_object (h : w.Orderly) (hs : Plain w c s) (ht : Plain w d t)
    (hobject : c.isObject = true) (hst : Holds env s t) : Same s t := by
  obtain rfl := eq_object_of_isObject hs.isClass hobject
  have hroot : d.isObject = true := by
    rcases isSubclass_of_top h List.mem_cons_self ht.isArray
      (isSubclass_of_holds hs.raw ht.raw hst) with hname | hroot
    · rw [← class_unique hs.isClass ht.isClass hname]
      exact hobject
    · exact hroot
  obtain rfl := eq_object_of_isObject ht.isClass hroot
  by_cases hgeneric : env.classes.genericForm .object = .cls .object
  · rw [(Registry.isInstance_cls hgeneric).mp hs.isInstance,
      (Registry.isInstance_cls hgeneric).mp ht.isInstance]
    exact Ty.same_refl _
  · exact same_of_holds_root hs ht hroot hgeneric hst

theorem holds_alike_left (hs : w.Writes s) (ht : w.Writes t) (hu : w.Writes u)
    (h : Same s t) (htu : Holds env t u) : Holds env s u :=
  htu.alike (alike_symm ⟨hs, ht, h⟩) (alike_refl hu)

theorem plain_trans {e : ClassRef} (h : w.Orderly) (hs : Plain w c s) (ht : Plain w d t)
    (hu : Plain w e u) (hcoherent : env.Coherent s) (hst : Holds env s t)
    (htu : Holds env t u) : Holds env s u := by
  cases hobject : d.isObject with
  | true =>
      exact hst.alike (alike_refl hs.writes)
        ⟨ht.writes, hu.writes, same_of_object h ht hu hobject htu⟩
  | false =>
      have hsub := isSubclass_trans h hs.isClass ht.isClass hu.isClass hs.isArray ht.isArray
        hu.isArray (isSubclass_of_holds hs.raw ht.raw hst) (isSubclass_of_holds ht.raw hu.raw htu)
      cases hroot : e.isObject with
      | false =>
          apply holds_of_reaches h hs hu hcoherent hroot hsub
          exact (reaches_of_holds h hs ht hobject hst).trans
            (reaches_of_holds h ht hu hroot htu)
      | true =>
          by_cases hgeneric : env.classes.genericForm e = .cls e
          · rw [(Registry.isInstance_cls hgeneric).mp hu.isInstance]
            exact (holds_cls_iff hs.raw).mpr hsub
          · exact hst.alike (alike_refl hs.writes)
              ⟨ht.writes, hu.writes, same_of_holds_root ht hu hroot hgeneric htu⟩

theorem plain_antisymm (h : w.Orderly) (hs : Plain w c s) (ht : Plain w d t)
    (hst : Holds env s t) (hts : Holds env t s) : Same s t := by
  have hsub := isSubclass_of_holds hs.raw ht.raw hst
  have hsub' := isSubclass_of_holds ht.raw hs.raw hts
  obtain rfl := isSubclass_antisymm h hs.isClass ht.isClass hs.isArray ht.isArray hsub hsub'
  by_cases hgeneric : env.classes.genericForm c = .cls c
  · rw [(Registry.isInstance_cls hgeneric).mp hs.isInstance,
      (Registry.isInstance_cls hgeneric).mp ht.isInstance]
    exact Ty.same_refl _
  · obtain ⟨σ, -, rfl⟩ := hs.closed hgeneric
    obtain ⟨τ, hclosed, rfl⟩ := ht.closed hgeneric
    exact same_of_holds_form _ c (closed_image hclosed) hst

/-- Subtyping is transitive between types of classes that are no arrays. -/
theorem simple_trans (h : w.Orderly) (hs : Simple w s) (ht : Simple w t) (hu : Simple w u)
    (hst : Holds env s t) (htu : Holds env t u) : Holds env s u := by
  cases hs with
  | primitive hc hprimitive =>
      exact holds_alike_left (.cls hc) ht.writes hu.writes
        (same_of_primitive hc hprimitive ht hst) htu
  | plain hs hcoherent =>
      cases ht with
      | primitive hd hprimitive =>
          exact hst.alike (alike_refl hs.writes)
            ⟨.cls hd, hu.writes, same_of_primitive hd hprimitive hu htu⟩
      | plain ht _ =>
          cases hu with
          | primitive he hprimitive =>
              rw [holds_cls_iff ht.raw] at htu
              exact (holds_cls_iff hs.raw).mpr (isSubclass_trans h hs.isClass ht.isClass he
                hs.isArray ht.isArray (isArray_of_primitive hprimitive)
                (isSubclass_of_holds hs.raw ht.raw hst) htu)
          | plain hu _ => exact plain_trans h hs ht hu hcoherent hst htu

/-- Subtyping is antisymmetric between types of classes that are no arrays. -/
theorem simple_antisymm (h : w.Orderly) (hs : Simple w s) (ht : Simple w t)
    (hst : Holds env s t) (hts : Holds env t s) : Same s t := by
  have hwrites := ht.writes
  cases hs with
  | primitive hc hprimitive => exact same_of_primitive hc hprimitive ht hst
  | plain hs hcoherent =>
      cases ht with
      | primitive hd hprimitive =>
          exact Ty.same_symm hwrites.writable
            (same_of_primitive hd hprimitive (.plain hs hcoherent) hts)
      | plain ht _ => exact plain_antisymm h hs ht hst hts

end Generics.Subtyping
