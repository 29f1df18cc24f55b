import Generics.Proofs.Checking
import Generics.Proofs.Uses

/-!
Navigation up and down again. The way up from an instance of a generic form
ends in the view of the form with the same types put in; on the way down the
match of the form's view finds these types again, and the check of the result
meets equal types only.
-/

namespace Generics

namespace Env

open Ty (Same Occurs InArray)

variable {env : Env} {s t u : Ty} {c d target : ClassRef}

/-! ## The class of a view -/

/-- A walk ends at the raw class of an edge. -/
theorem plain_of_firstAt (hplain : env.classes.PlainEdges) {n : Nat}
    (h : firstAt (env.viewStep target) n t = some u) :
    ∃ d, u.raw? = some d ∧ d.isPlain = true ∧ d.name = target.name := by
  induction n generalizing t with
  | zero =>
      simp only [firstAt] at h
      cases hstep : env.viewStep target t with
      | goal v =>
          obtain rfl : v = u := by simpa [hstep, Expansion.goal?] using h
          obtain ⟨edge, hedge, rfl, hroot⟩ := viewStep_goal hstep
          obtain ⟨d, hd, hdplain, herase⟩ := raw?_edge hplain hedge
          rw [herase] at hroot
          exact ⟨d, raw?_instantiated hd t, hdplain, ClassRef.beq_iff_name.mp hroot⟩
      | next more => simp [hstep, Expansion.goal?] at h
  | succ n ih =>
      obtain ⟨t', -, hfirst⟩ := List.exists_of_findSome?_eq_some h
      exact ih hfirst

/-- Looking for the raw class of a view goes as looking for the view goes. -/
theorem viewAs_erase_of_view (hplain : env.classes.PlainEdges) (ht : t.raw? = some c)
    (hc : c.isArray = false) (htarget : target.isArray = false)
    (hsub : env.isSubclass c target = true) (h : env.View t target u) :
    env.viewAs t (env.erase u) = env.viewAs t target ∧ HasRaw u ∧
      env.isSubclass c (env.erase u) = true := by
  have hstart : env.viewStart t = some (env.climbStart t) := viewStart_eq_climbStart ht hc
  have hstartRaw : (env.climbStart t).raw? = some c := raw?_climbStart ht hc
  have herase : env.erase (env.climbStart t) = c := erase_of_raw? hstartRaw
  cases h with
  | object hobject =>
      have hshortcut : ((env.erase .object).isObject && !t.isPrimitive) = true := by
        rw [Bool.and_eq_true] at hobject
        exact Bool.and_eq_true_iff.mpr ⟨rfl, hobject.2⟩
      refine ⟨by rw [viewAs, viewAs, if_pos hshortcut, if_pos hobject], ⟨.object, rfl, rfl⟩, ?_⟩
      have hroot : target.name = ClassRef.rootName := by
        rw [Bool.and_eq_true] at hobject
        simpa only [ClassRef.isObject, beq_iff_eq] using hobject.1
      cases hprimitive : c.isPrimitive with
      | true =>
          have hname := (isSubclass_primitive (Or.inl hprimitive)).mp hsub
          exact isSubclass_of_name (hname.trans hroot)
      | false => exact isSubclass_object hprimitive rfl rfl
  | start hobject hs hsame =>
      obtain rfl := Option.some.inj (hstart.symm.trans hs)
      rw [herase] at hsame ⊢
      have hroot : c.isObject = target.isObject := by
        rw [ClassRef.isObject, ClassRef.isObject, ClassRef.beq_iff_name.mp hsame]
      refine ⟨?_, ⟨c, hstartRaw, hc⟩, isSubclass_of_name rfl⟩
      simp only [viewAs, hroot, hobject, hstart, herase, hsame, BEq.rfl, Bool.false_eq_true,
        if_false, if_true]
  | walk hobject hs hne hnearest =>
      obtain rfl := Option.some.inj (hstart.symm.trans hs)
      obtain ⟨n, hfirst, -⟩ := hnearest
      obtain ⟨d, hd, hdplain, hname⟩ := plain_of_firstAt hplain hfirst
      have hdarray := (ClassRef.isPlain_iff.mp hdplain).1
      have hcname : c.name ≠ target.name := by
        intro hname
        rw [herase, ClassRef.beq_iff_name.mpr hname] at hne
        cases hne
      have htplain : target.isPlain = true :=
        ClassRef.isPlain_iff.mpr ⟨htarget, (isPrimitive_of_isSubclass hsub hcname).2⟩
      have hdne : (env.erase (env.climbStart t) == d) = false := by
        rw [← Bool.not_eq_true, ClassRef.beq_iff_name, herase, hname]
        exact hcname
      have hroot : d.isObject = target.isObject := by
        rw [ClassRef.isObject, ClassRef.isObject, hname]
      rw [erase_of_raw? hd]
      refine ⟨?_, ⟨d, hd, hdarray⟩, ?_⟩
      · simp only [viewAs, hroot, hobject, hstart, hne, hdne, Bool.false_eq_true, if_false]
        rw [viewStep_congr hdplain htplain hname]
      · rw [isSubclass_congr hdplain htplain hname]
        exact hsub

/-- A view is found again by its own raw class. -/
theorem viewAs_erase (hplain : env.classes.PlainEdges) (ht : t.raw? = some c)
    (hc : c.isArray = false) (htarget : target.isArray = false)
    (hsub : env.isSubclass c target = true) (h : env.viewAs t target = .found u) :
    env.viewAs t (env.erase u) = .found u ∧ HasRaw u ∧
      env.isSubclass c (env.erase u) = true := by
  obtain ⟨hself, hraw, hbelow⟩ :=
    viewAs_erase_of_view hplain ht hc htarget hsub (view_of_raw? (rawEdges_of_plain hplain) ht hc h)
  exact ⟨hself.trans h, hraw, hbelow⟩

/-! ## Equal types -/

/-- Equal parameterized types of classes that are no arrays. -/
structure Twins (s t : Ty) : Prop where
  left : s.Built
  right : t.Built
  raw : OfOneRaw s t
  same : Same s t

theorem viewStep_twins (hplain : env.classes.PlainEdges) (hedges : env.ScopedEdges)
    (target : ClassRef) (h : Twins s t) :
    (env.viewStep target s).Related Twins Twins (env.viewStep target t) := by
  obtain ⟨c, d, hs, ht, hc, hd, hname⟩ := h.raw
  apply viewStep_related
  apply instantiatedEdges_related
  · rw [erase_of_raw? hs, erase_of_raw? ht, Registry.directSupertypes_of_name hc hd hname]
  · intro edge hedge
    obtain ⟨e, he, harray⟩ := hasRaw_edge hplain hedge
    rw [erase_of_raw? hs] at hedge
    have hbuilt := hedges.built c hc edge hedge
    refine ⟨?_, ?_, ⟨e, e, raw?_instantiated he s, raw?_instantiated he t, harray, harray, rfl⟩, ?_⟩
    · exact built_instantiated hbuilt h.left
    · exact built_instantiated hbuilt h.right
    · unfold instantiated
      rw [isRawUse_same h.same]
      split
      · exact Ty.same_refl _
      · exact Ty.same_subst hbuilt.writable (fun v _ => (built_carried h.left v).writable)
          fun v _ => carried_same h.same v

theorem beq_twins {a a' x x' : Ty} (h : Twins a a') (h' : Twins x x') :
    (a == x) = (a' == x') := by
  apply Bool.eq_iff_iff.mpr
  constructor
  · intro hax
    exact Ty.same_trans (Ty.same_symm h.left.writable h.same) (Ty.same_trans hax h'.same)
  · intro hax
    exact Ty.same_trans h.same (Ty.same_trans hax (Ty.same_symm h'.left.writable h'.same))

/-- Equal parameterized types have equal views, found in as many steps. -/
theorem viewAs_same (hplain : env.classes.PlainEdges) (hedges : env.ScopedEdges)
    (hparam : s.isParameterized = true) (h : Twins s t)
    (hview : env.viewAs s target = .found u) :
    ∃ u', env.viewAs t target = .found u' ∧ Same u u' := by
  obtain ⟨owner, raw, args, rfl⟩ : ∃ owner raw args, s = .param owner raw args := by
    cases s with
    | param owner raw args => exact ⟨owner, raw, args, rfl⟩
    | _ => cases hparam
  obtain ⟨owner', raw', args', rfl, hname, -⟩ := Ty.same_param.mp h.same
  have hroot : (raw' == target) = (raw == target) := by
    apply Bool.eq_iff_iff.mpr
    rw [ClassRef.beq_iff_name, ClassRef.beq_iff_name, hname]
  have hviewAs : ∀ owner raw args, env.viewAs (.param owner raw args) target =
      if target.isObject then .found .object
      else if raw == target then .found (.param owner raw args)
      else search (env.viewStep target) Limits.walkSteps (.param owner raw args) := by
    intro owner raw args
    simp only [viewAs, viewStart, Ty.isPrimitive, Bool.not_false, Bool.and_true,
      erase_of_raw? (show (Ty.param owner raw args).raw? = some raw from rfl)]
  rw [hviewAs] at hview ⊢
  rw [hroot]
  split at hview
  · rename_i hobject
    rw [if_pos hobject]
    cases hview
    exact ⟨.object, rfl, Ty.same_refl _⟩
  · rename_i hobject
    rw [if_neg hobject]
    split at hview
    · rename_i hself
      rw [if_pos hself]
      cases hview
      exact ⟨_, rfl, h.same⟩
    · rename_i hother
      rw [if_neg hother]
      obtain ⟨u', hu', htwins⟩ := search_related
        (fun _ _ => viewStep_twins hplain hedges target) (fun _ _ _ _ => beq_twins) h hview
      exact ⟨u', hu', htwins.same⟩

/-! ## The check of a result -/

/-- A first question is entered, and answered as its rule answers it. -/
theorem isSubtype_of_rule
    (h : ∀ c : Checker, ((Subtyping.rule env
      (fun a b => Verdict.accepts <$> Subtyping.checkWithin env Limits.subtypeDepth a b)
        s t).run c).1 = true) : (env.isSubtype s t).ask = true := by
  by_cases hsame : (s == t) = true
  · have hrun : Subtyping.checkWithin env (Limits.subtypeDepth + 1) s t = pure .holds := by
      rw [Subtyping.checkWithin, if_pos hsame]
    rw [isSubtype, checkSubtype, hrun]
    rfl
  · have hentered : Checker.fresh.guard.judge (s, t) = .entered := rfl
    rw [isSubtype, checkSubtype, CheckM.ask,
      Subtyping.run_checkWithin Limits.subtypeDepth hsame .fresh, hentered]
    exact h _

theorem isAssignable_of_subtype (hs : s.isWildcard = false) (ht : t.isWildcard = false)
    (h : (env.isSubtype s t).ask = true) : env.isAssignable t s = true := by
  rw [isAssignable, checkAssignable_eq ht hs]
  exact h

theorem isWildcard_of_raw? (h : t.raw? = some c) : t.isWildcard = false := by
  cases t with
  | wild _ _ => cases h
  | _ => rfl

theorem isAssignable_cls (hs : s.raw? = some c) (hsub : env.isSubclass c d = true) :
    env.isAssignable (.cls d) s = true := by
  apply isAssignable_of_subtype (isWildcard_of_raw? hs) rfl
  apply isSubtype_of_rule
  intro checker
  rw [Subtyping.rule_toClass hs, hsub]
  rfl

/-- Equal arguments are contained, without a further question. -/
theorem allM_contains {below : Subtyping.Asking} {actuals formals : List Ty}
    (h : List.Forall₂ Same actuals formals) (checker : Checker) :
    ((actuals.zip formals).allM fun pair =>
      Subtyping.contains below pair.1 pair.2).run checker = (true, checker) := by
  induction h with
  | nil => rfl
  | @cons actual formal _ _ hsame _ ih =>
      have hequal : (actual == formal) = true := hsame
      have hhead : Subtyping.contains below actual formal = pure true := by
        rw [Subtyping.contains.eq_def, if_pos hequal]
      simp only [List.zip_cons_cons, List.allM, hhead]
      exact ih

section

variable {below : Subtyping.Asking} {owner : Option Ty} {raw : ClassRef} {args : List Ty}

theorem run_ownerRule
    (hbelow : ∀ a b, Same a b → ∀ checker, ((below a b).run checker).1 = true)
    {viewOwner : Option Ty} {viewRaw : ClassRef} {actuals : List Ty}
    (howners : Option.Rel Same viewOwner owner) (checker : Checker) :
    ((Subtyping.ownerRule env below (.param viewOwner viewRaw actuals) owner raw).run
      checker).1 = true := by
  cases howners with
  | none => rfl
  | some hsame =>
      simp only [Subtyping.ownerRule]
      split
      · rfl
      · exact hbelow _ _ hsame checker

/-- The rule for a parameterized target holds of a view equal to the target. -/
theorem run_parameterizedRule
    (hbelow : ∀ a b, Same a b → ∀ checker, ((below a b).run checker).1 = true)
    (hs : s.raw? = some c) (hsub : env.isSubclass c raw = true)
    (hview : env.viewAs s raw = .found u) (hsame : Same u (.param owner raw args))
    (checker : Checker) :
    ((Subtyping.parameterizedRule env below s owner raw args).run checker).1 = true := by
  obtain ⟨viewOwner, viewRaw, actuals, rfl⟩ : ∃ viewOwner viewRaw actuals,
      u = .param viewOwner viewRaw actuals := by
    cases u with
    | param viewOwner viewRaw actuals => exact ⟨viewOwner, viewRaw, actuals, rfl⟩
    | _ => exact absurd hsame (by simp [Same, BEq.beq, Ty.beq])
  obtain ⟨_, _, _, heq, -, howners, hargs⟩ := Ty.same_param.mp hsame
  cases heq
  rw [Subtyping.parameterizedRule, erase_of_raw? hs, hsub, hview]
  change ((Subtyping.viewRule env below (.param viewOwner viewRaw actuals) owner raw args).run
    checker).1 = true
  rw [Subtyping.viewRule, Subtyping.viewArgs, if_neg (not_not.mpr hargs.length_eq),
    Subtyping.run_bind, allM_contains hargs checker]
  exact run_ownerRule hbelow howners checker

end

/-- A type is assignable to its view, up to equality. -/
theorem isAssignable_of_view {owner : Option Ty} {raw : ClassRef} {args : List Ty}
    (hs : s.raw? = some c) (hsub : env.isSubclass c raw = true)
    (hview : env.viewAs s raw = .found u) (hsame : Same u (.param owner raw args)) :
    env.isAssignable (.param owner raw args) s = true := by
  apply isAssignable_of_subtype (isWildcard_of_raw? hs) rfl
  apply isSubtype_of_rule
  intro checker
  rw [Subtyping.rule_toParameterized hs]
  apply run_parameterizedRule _ hs hsub hview hsame
  intro a b hab checker
  have hequal : Subtyping.checkWithin env Limits.subtypeDepth a b = pure .holds := by
    rw [Limits.subtypeDepth, Subtyping.checkWithin, if_pos hab]
  rw [hequal]
  rfl

theorem isAssignable_view (hs : s.raw? = some c) (ht : HasRaw t)
    (hsub : env.isSubclass c (env.erase t) = true)
    (hview : env.viewAs s (env.erase t) = .found u) (hsame : Same u t) :
    env.isAssignable t s = true := by
  obtain ⟨d, hd, -⟩ := ht
  rw [erase_of_raw? hd] at hsub hview
  cases t with
  | cls e =>
      obtain rfl := Option.some.inj hd
      exact isAssignable_cls hs hsub
  | param owner raw args =>
      obtain rfl := Option.some.inj hd
      exact isAssignable_of_view hs hsub hview hsame
  | _ => cases hd

/-! ## The way down -/

theorem subtype_of_candidate {candidate : Ty} (ht : HasRaw t)
    (hsub : env.isSubclass c (env.erase t) = true)
    (hinfer : env.inferSubtype t c = .ok candidate)
    (hassignable : env.isAssignable t candidate = true) : env.subtype t c = .ok candidate := by
  have hplainSubtype : env.plainSubtype t c = .ok candidate := by
    rw [plainSubtype, hsub, hinfer]
    change (if env.isAssignable t candidate then _ else _) = _
    rw [if_pos hassignable]
    rfl
  obtain ⟨d, hd, harray⟩ := ht
  have hnoArray : t.isArray = false := by
    cases t with
    | cls e =>
        obtain rfl := Option.some.inj hd
        exact harray
    | param _ _ _ => rfl
    | _ => cases hd
  rw [subtype.eq_def]
  cases t with
  | cls _ => simp only [hnoArray, Bool.false_eq_true, if_false, hplainSubtype]
  | param _ _ _ => simp only [hnoArray, Bool.false_eq_true, if_false, hplainSubtype]
  | _ => cases hd

/-- An instance of the generic form of a class, and the view of the form as an
ancestor. All variables of the form are in the view, and none of them is an
array component there that is replaced by a wildcard. -/
structure Invertible (env : Env) (c target : ClassRef) (σ : Substitution) (shape : Ty) :
    Prop where
  isArray : c.isArray = false
  built : ∀ v t, σ.get? v = some t → t.Built
  view : env.viewAs (env.classes.genericForm c) target = .found shape
  occurs : ∀ v, Occurs v (env.classes.genericForm c) → Occurs v shape
  arrays : ∀ v, InArray v shape → ((Ty.var v).subst σ).isWildcard = false

/-- A class about which nothing is generic is its own way back. -/
theorem subtype_supertype_bare (hplain : env.classes.PlainEdges) (hc : c.isArray = false)
    (hform : env.classes.genericForm c = .cls c)
    (hu : env.supertype (.cls c) target = .ok u) : env.subtype u c = .ok (.cls c) := by
  obtain ⟨htarget, hsub, hview⟩ := viewAs_of_supertype rfl hc hu
  obtain ⟨hself, hraw, hbelow⟩ := viewAs_erase hplain rfl hc htarget hsub hview
  apply subtype_of_candidate hraw hbelow
  · unfold inferSubtype
    dsimp only
    split
    · rfl
    · have hfound : (env.viewAs (.cls c) (env.erase u)).get? = some u := by
        rw [hself]
        rfl
      have hunify := Substitution.unify_of_same (Ty.same_refl u) .empty
      simp only [hform, hfound, hunify]
      rfl
  · exact isAssignable_view rfl hraw hbelow hself (Ty.same_refl u)

/-- Something generic is said with a variable. -/
theorem exists_occurs (hops : Nat) (c : ClassRef)
    (h : (env.classes.formSteps hops c).isParameterized = true) :
    ∃ v, Occurs v (env.classes.formSteps hops c) := by
  induction hops generalizing c with
  | zero => cases h
  | succ hops ih =>
      cases c with
      | array name component =>
          rcases Registry.formWithin_array env.classes (env.classes.formSteps hops) name component
            with ⟨-, hform⟩ | ⟨-, hform⟩
          · rw [Registry.formSteps, hform] at h
            cases h
          · rw [Registry.formSteps, hform] at h
            cases h
      | named name kind =>
          rw [Registry.formSteps, Registry.formWithin_of_plain env.classes _ rfl] at h ⊢
          cases hbare : env.classes.isBare (env.classes.formSteps hops) (.named name kind) with
          | true =>
              rw [hbare] at h
              cases h
          | false =>
              simp only [Bool.false_eq_true, if_false]
              rcases Registry.generic_cases hbare with
                ⟨v, vs, hparameters⟩ | ⟨-, outer, hform, hgeneric⟩
              · rw [hparameters]
                exact ⟨v, .arg List.mem_cons_self (Ty.occurs_self v)⟩
              · obtain ⟨v, hv⟩ := ih outer hgeneric
                rw [hform]
                exact ⟨v, .owner hv⟩

theorem resolve_genericForm (θ : Substitution) :
    θ.resolve (env.classes.genericForm c) = (env.classes.genericForm c).subst θ := by
  unfold Substitution.resolve
  split
  · rename_i hempty
    obtain rfl : θ = .empty := by
      obtain ⟨bindings⟩ := θ
      exact congrArg Substitution.mk (List.isEmpty_iff.mp hempty)
    exact (Registry.formSteps_subst_empty _ c).symm
  · rfl

/-- The match of the form's view with an instance of it resolves the form to
the instance. -/
theorem inferSubtype_instance {σ : Substitution} {shape : Ty}
    (hgeneric : (env.classes.genericForm c).isParameterized = true)
    (hshape : shape.Built) (hraw : HasRaw shape)
    (hview : env.viewAs (env.classes.genericForm c) (env.erase shape) = .found shape)
    (hoccurs : ∀ v, Occurs v (env.classes.genericForm c) → Occurs v shape)
    (harrays : ∀ v, InArray v shape → ((Ty.var v).subst σ).isWildcard = false) :
    ∃ θ : Substitution, θ.PartOf σ ∧ (∀ v, Occurs v shape → Substitution.Settled σ θ v) ∧
      env.inferSubtype (shape.subst σ) c = .ok ((env.classes.genericForm c).subst θ) := by
  obtain ⟨d, hd, -⟩ := hraw
  obtain ⟨v, hv⟩ := exists_occurs (env.classes.size + 1) c hgeneric
  have hclass : (shape.subst σ).class? = none := by
    cases shape with
    | cls e => cases hoccurs v hv
    | param _ _ _ =>
        rw [Ty.subst_param]
        rfl
    | _ => cases hd
  have hempty : Substitution.PartOf .empty σ := by
    intro v t h
    cases h
  obtain ⟨θ, hunify, -, hpart, hsettled⟩ := Substitution.unify_subst hshape harrays hempty
  refine ⟨θ, hpart, hsettled, ?_⟩
  have hfound : (env.viewAs (env.classes.genericForm c) (env.erase shape)).get? = some shape := by
    rw [hview]
    rfl
  unfold inferSubtype
  simp only [hclass, erase_subst hd, hfound, hunify, Option.isSome_none, Bool.false_and,
    Bool.false_eq_true, if_false, resolve_genericForm]

theorem isParameterized_subst (h : t.isParameterized = true) (σ : Substitution) :
    (t.subst σ).isParameterized = true := by
  cases t with
  | param _ _ _ =>
      rw [Ty.subst_param]
      rfl
  | _ => cases h

theorem built_image {σ : Substitution} (h : ∀ v t, σ.get? v = some t → t.Built) (v : TyVar) :
    ((Ty.var v).subst σ).Built := by
  rw [Ty.subst_var]
  cases hget : σ.get? v with
  | none => exact .var v
  | some t => exact h v t hget

/-- Up from an instance of a generic form and down again leads to an equal type. -/
theorem subtype_supertype (hplain : env.classes.PlainEdges) (hedges : env.ScopedEdges)
    (hraw : env.ScopedRaw) {σ : Substitution} {shape : Ty}
    (h : env.Invertible c target σ shape)
    (hu : env.supertype ((env.classes.genericForm c).subst σ) target = .ok u) :
    ∃ t, env.subtype u c = .ok t ∧ (t == (env.classes.genericForm c).subst σ) = true := by
  cases hgeneric : (env.classes.genericForm c).isParameterized with
  | false =>
      have hform : env.classes.genericForm c = .cls c := by
        rcases Registry.formWithin_raw env.classes (env.classes.formSteps env.classes.size)
          h.isArray with hcls | ⟨owner, hparam⟩
        · exact hcls
        · rw [show env.classes.genericForm c = _ from hparam] at hgeneric
          cases hgeneric
      rw [hform, Ty.subst_cls] at hu ⊢
      exact ⟨.cls c, subtype_supertype_bare hplain h.isArray hform hu, Ty.same_refl _⟩
  | true =>
      have hformRaw : (env.classes.genericForm c).raw? = some c := raw?_genericForm h.isArray
      have hinstanceRaw := raw?_subst hformRaw σ
      obtain ⟨htarget, hsub, hview⟩ := viewAs_of_supertype hinstanceRaw h.isArray hu
      -- the walk from the instance ends in the instance of the form's view
      have hshapeView : env.View (env.classes.genericForm c) target shape :=
        view_of_raw? (rawEdges_of_plain hplain) hformRaw h.isArray h.view
      obtain ⟨hinstanceView, hshape, hshapeRaw⟩ :=
        view_subst hplain hedges hraw h.isArray hgeneric hshapeView σ
      have huView : env.View ((env.classes.genericForm c).subst σ) target u :=
        view_of_raw? (rawEdges_of_plain hplain) hinstanceRaw h.isArray hview
      obtain rfl := view_unique hinstanceView huView
      obtain ⟨hself, huRaw, hbelow⟩ :=
        viewAs_erase hplain hinstanceRaw h.isArray htarget hsub hview
      -- the form's own view is found again, and its match with the instance
      obtain ⟨hformSelf, -, -⟩ :=
        viewAs_erase hplain hformRaw h.isArray htarget hsub h.view
      obtain ⟨θ, hpart, hsettled, hinfer⟩ := inferSubtype_instance hgeneric hshape hshapeRaw
        hformSelf h.occurs h.arrays
      have hσ : ∀ v, ((Ty.var v).subst σ).Built := built_image h.built
      have hθ : ∀ v, ((Ty.var v).subst θ).Built :=
        built_image fun v t hget => h.built v t (hpart v t hget)
      have hsame : Same ((env.classes.genericForm c).subst θ)
          ((env.classes.genericForm c).subst σ) :=
        Ty.same_subst (Registry.writable_genericForm c) (fun v _ => (hθ v).writable)
          fun v hv => hsettled v (h.occurs v hv)
      have htwins : Twins ((env.classes.genericForm c).subst σ)
          ((env.classes.genericForm c).subst θ) := by
        refine ⟨?_, ?_, ⟨c, c, hinstanceRaw, raw?_subst hformRaw θ, h.isArray, h.isArray, rfl⟩, ?_⟩
        · exact Ty.built_subst (Registry.built_genericForm c) fun v _ => hσ v
        · exact Ty.built_subst (Registry.built_genericForm c) fun v _ => hθ v
        · exact Ty.same_symm (Ty.built_subst (Registry.built_genericForm c)
            fun v _ => hθ v).writable hsame
      -- the result is checked against an equal view
      obtain ⟨u', hview', hsame'⟩ :=
        viewAs_same hplain hedges (isParameterized_subst hgeneric σ) htwins hself
      refine ⟨_, subtype_of_candidate huRaw hbelow hinfer ?_, hsame⟩
      apply isAssignable_view (raw?_subst hformRaw θ) huRaw hbelow hview'
      exact Ty.same_symm (Ty.built_subst hshape fun v _ => hσ v).writable hsame'

/-- A list of anything below strings, up to the interface and down again. -/
theorem subtype_supertype_arrayList :
    let wild := Ty.wild [stringType] []
    ∃ t, listEnv.subtype (.param none listClass [wild]) arrayListClass = .ok t ∧
      (t == .param none arrayListClass [wild]) = true := by
  have hplain : listEnv.classes.PlainEdges := by decide
  have hbuilt : ∀ entry ∈ listEnv.classes.decls.toList, ∀ e ∈ entry.2.supertypes, e.Built := by
    refine Registry.forall_supertypes
      (show _ = [Ty.object, .param none listClass [.var arrayListVar]] from rfl) ?_
    simp only [List.forall_mem_cons]
    exact ⟨.cls _, .param (by simp) (by simp [Ty.Built.var]), List.forall_mem_nil _⟩
  have hedges : listEnv.ScopedEdges := scopedEdges_of_check (by decide) hbuilt
  have hraw : listEnv.ScopedRaw := by
    apply scopedRaw_of_noRaw
    refine Registry.forall_supertypes
      (show _ = [Ty.object, .param none listClass [.var arrayListVar]] from rfl) ?_
    simp only [List.forall_mem_cons]
    exact ⟨rfl, rfl, List.forall_mem_nil _⟩
  have hinvertible : listEnv.Invertible arrayListClass listClass
      ⟨[(arrayListVar, .wild [stringType] [])]⟩ (.param none listClass [.var arrayListVar]) := by
    refine ⟨rfl, ?_, rfl, ?_, ?_⟩
    · intro v t hget
      obtain ⟨_, hmem, -⟩ := Substitution.mem_of_get? hget
      rw [(Prod.mk.inj (List.mem_singleton.mp hmem)).2]
      exact .wildUpper (.cls _)
    · intro v hv
      have hform : Occurs v (.param none arrayListClass [.var arrayListVar]) := hv
      cases hform with
      | arg hmem h => exact .arg hmem h
    · intro v hv
      cases hv with
      | arg hmem h =>
          obtain rfl := List.mem_singleton.mp hmem
          cases h
  exact subtype_supertype hplain hedges hraw hinvertible rfl

/-! ## An edge that is a variable, and a raw use below an inner class -/

def boundClass : ClassRef := .named "A" .ordinary

def selfVar : TyVar := ⟨0, .ofClass (.named "C" .ordinary), "T"⟩

/-- A class that extends its own parameter. -/
def selfEnv : Env :=
  ⟨((Registry.core.register (.of boundClass)).register
      (.of (.named "java.lang.String" .ordinary))).register
    (((ClassDecl.of (.named "C" .ordinary)).withParameters [selfVar]).extending (.var selfVar)),
    ⟨#[some [.cls boundClass]]⟩⟩

def fooClass : ClassRef := .named "Foo" .ordinary

def outerClass : ClassRef := .named "Outer" .ordinary

def innerClass : ClassRef := .named "Inner" .ordinary

def rawClass : ClassRef := .named "R" .ordinary

def fooVar : TyVar := ⟨0, .ofClass fooClass, "X"⟩

def outerVar : TyVar := ⟨1, .ofClass outerClass, "T"⟩

def rawVar : TyVar := ⟨2, .ofClass rawClass, "Z"⟩

/-- A class that extends a generic class without its arguments, which extends an
inner class of it. -/
def rawEnv : Env :=
  ⟨[((ClassDecl.of fooClass).withParameters [fooVar]),
    (((ClassDecl.of innerClass).nestedIn outerClass).implementing
      (.param none fooClass [.var outerVar])),
    (((ClassDecl.of rawClass).withParameters [rawVar]).extending
      (.param (some (.param none outerClass [.var rawVar])) innerClass [])),
    (((ClassDecl.of outerClass).withParameters [outerVar]).extending (.cls rawClass))].foldl
      Registry.register .core, .empty⟩

theorem invertible_of_class {v : TyVar} {shape : Ty} (hc : c.isArray = false)
    (hview : env.viewAs (env.classes.genericForm c) target = .found shape)
    (hoccurs : ∀ v, Occurs v (env.classes.genericForm c) → Occurs v shape) :
    env.Invertible c target ⟨[(v, .cls d)]⟩ shape := by
  have himage : ∀ w t, Substitution.get? ⟨[(v, .cls d)]⟩ w = some t → t = .cls d := by
    intro w t hget
    obtain ⟨_, hmem, -⟩ := Substitution.mem_of_get? hget
    exact (Prod.mk.inj (List.mem_singleton.mp hmem)).2
  refine ⟨hc, ?_, hview, hoccurs, ?_⟩
  · intro w t hget
    rw [himage w t hget]
    exact .cls d
  · intro w _
    rw [Ty.subst_var]
    cases hget : Substitution.get? ⟨[(v, .cls d)]⟩ w with
    | none => rfl
    | some t =>
        rw [himage w t hget]
        rfl

theorem selfEnv_scoped : selfEnv.ScopedEdges ∧ selfEnv.ScopedRaw := by
  have hall : selfEnv.classes.decls.toList.flatMap (fun entry => entry.2.supertypes) =
      [.object, .var selfVar, .object] := rfl
  constructor
  · apply scopedEdges_of_check (by decide)
    refine Registry.forall_supertypes hall ?_
    simp only [List.forall_mem_cons]
    exact ⟨.cls _, .var _, .cls _, List.forall_mem_nil _⟩
  · apply scopedRaw_of_noRaw
    refine Registry.forall_supertypes hall ?_
    simp only [List.forall_mem_cons]
    exact ⟨rfl, rfl, rfl, List.forall_mem_nil _⟩

theorem rawEnv_scoped : rawEnv.ScopedEdges := by
  apply scopedEdges_of_check (by decide)
  refine Registry.forall_supertypes (show _ = [Ty.object, .object,
    .param none fooClass [.var outerVar], .cls rawClass,
    .param (some (.param none outerClass [.var rawVar])) innerClass []] from rfl) ?_
  simp only [List.forall_mem_cons]
  refine ⟨.cls _, .cls _, ?_, .cls _, ?_, List.forall_mem_nil _⟩
  · exact .param (by simp) (by simp [Ty.Built.var])
  · refine .param ?_ (by simp)
    intro t ht
    obtain rfl := Option.some.inj ht
    exact .param (by simp) (by simp [Ty.Built.var])

/-- The way up is lost above a variable, and above a raw use that leads to an
inner class without parameters of its own. -/
theorem subtype_supertype_lost :
    (¬∀ (env : Env) (c target : ClassRef) (σ : Substitution) (shape u : Ty),
      env.ScopedEdges → env.ScopedRaw → env.Invertible c target σ shape →
      env.supertype ((env.classes.genericForm c).subst σ) target = .ok u →
      ∃ t, env.subtype u c = .ok t ∧ (t == (env.classes.genericForm c).subst σ) = true) ∧
    ¬∀ (env : Env) (c target : ClassRef) (σ : Substitution) (shape u : Ty),
      env.classes.PlainEdges → env.ScopedEdges → env.Invertible c target σ shape →
      env.supertype ((env.classes.genericForm c).subst σ) target = .ok u →
      ∃ t, env.subtype u c = .ok t ∧ (t == (env.classes.genericForm c).subst σ) = true := by
  constructor
  · intro hclaim
    have hinvertible : selfEnv.Invertible (.named "C" .ordinary) boundClass
        ⟨[(selfVar, stringType)]⟩ (.var selfVar) := by
      apply invertible_of_class rfl rfl
      intro v hv
      have hform : Occurs v (.param none (.named "C" .ordinary) [.var selfVar]) := hv
      cases hform with
      | arg hmem h =>
          obtain rfl := List.mem_singleton.mp hmem
          exact h
    obtain ⟨t, ht, -⟩ := hclaim selfEnv (.named "C" .ordinary) boundClass _ _ stringType
      selfEnv_scoped.1 selfEnv_scoped.2 hinvertible rfl
    have hfails : (selfEnv.subtype stringType (.named "C" .ordinary)).isOk = false := by
      decide
    rw [ht] at hfails
    cases hfails
  · intro hclaim
    have hinvertible : rawEnv.Invertible outerClass fooClass ⟨[(outerVar, .object)]⟩
        (.param none fooClass [.var outerVar]) := by
      apply invertible_of_class rfl rfl
      intro v hv
      have hform : Occurs v (.param none outerClass [.var outerVar]) := hv
      cases hform with
      | arg hmem h => exact .arg hmem h
    obtain ⟨t, ht, hsame⟩ := hclaim rawEnv outerClass fooClass _ _
      (.param none fooClass [.var outerVar]) (by decide) rawEnv_scoped hinvertible rfl
    have hfound : rawEnv.subtype (.param none fooClass [.var outerVar]) outerClass =
        .ok (.param none outerClass [.var outerVar]) := rfl
    obtain rfl := Except.ok.inj (ht.symm.trans hfound)
    exact absurd hsame (by decide)

end Env

end Generics
