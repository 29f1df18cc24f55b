import Generics.Formation
import Generics.Proofs.Bindings
import Generics.Proofs.Locality

/-!
Types that are built and forms that are resolved. The factory puts the arguments
of a class behind an owner that it chooses or is given; the generic form of the
class has its parameters there, behind the form of the class around it. With the
parameters resolved to the arguments the two are equal, since the parameters of
a class do not occur in the forms of the classes around it. There is one
exception, the classes inside an array class over a generic class: the factory
takes the array class for their owner, and the form has the generic array.
-/

namespace Generics

open Ty (Same Occurs)

namespace Registry

variable {registry : Registry} {c outer : ClassRef} {n : Nat} {v p : TyVar}
  {σ τ : Substitution}

/-! ## What occurs in a form -/

theorem occurs_formWithin {outerForm : ClassRef → Ty} {name : String} {kind : ClassKind}
    (hv : Occurs v (registry.formWithin outerForm (.named name kind))) :
    (∃ outer, registry.isStatic (.named name kind) = false ∧
      registry.enclosing? (.named name kind) = some outer ∧ Occurs v (outerForm outer)) ∨
      ∃ p ∈ registry.parameters (.named name kind), (p == v) = true := by
  rw [formWithin_of_plain registry outerForm rfl] at hv
  split at hv
  · cases hv
  · generalize howner : registry.ownerForm outerForm (.named name kind) = owner at hv
    cases hv with
    | owner hv =>
        obtain ⟨outer, houter, rfl⟩ := Option.map_eq_some_iff.mp howner
        split at hv
        · cases hv
        · exact Or.inl ⟨outer, Bool.eq_false_of_not_eq_true ‹_›, houter, hv⟩
    | arg hmem hv =>
        obtain ⟨p, hp, rfl⟩ := List.mem_map.mp hmem
        cases hv with
        | var hpv => exact Or.inr ⟨p, hp, hpv⟩

/-- A form mentions the parameters of the class and of the classes around it. -/
theorem exists_parameter_of_occurs (h : registry.Nested n c) {hops : Nat}
    (hv : Occurs v (registry.formSteps hops c)) : ∃ m name kind, m ≤ n ∧
      registry.Nested m (.named name kind) ∧
      ∃ p ∈ registry.parameters (.named name kind), (p == v) = true := by
  induction h generalizing hops with
  | @array n name component hcomponent ih =>
      cases hops with
      | zero => cases hv
      | succ hops =>
          rw [formSteps] at hv
          rcases formWithin_array registry (registry.formSteps hops) name component
            with ⟨-, hform⟩ | ⟨-, hform⟩
          · rw [hform] at hv
            cases hv
          · rw [hform] at hv
            cases hv with
            | component hv =>
                have hinside : Occurs v (registry.formSteps (hops + 1) component) := hv
                exact ih hinside
  | @outermost name kind h =>
      cases hops with
      | zero => cases hv
      | succ hops =>
          rcases occurs_formWithin hv with ⟨outer, hstatic, houter, -⟩ | hparameter
          · rw [h hstatic] at houter
            cases houter
          · exact ⟨0, name, kind, le_refl _, .outermost h, hparameter⟩
  | @inner n name kind outer hstatic houter hnested ih =>
      cases hops with
      | zero => cases hv
      | succ hops =>
          rcases occurs_formWithin hv with ⟨outer', -, houter', hv⟩ | hparameter
          · obtain rfl := Option.some.inj (houter.symm.trans houter')
            obtain ⟨m, name', kind', hm, hrest⟩ := ih hv
            exact ⟨m, name', kind', Nat.le_succ_of_le hm, hrest⟩
          · exact ⟨n + 1, name, kind, le_refl _, .inner hstatic houter hnested, hparameter⟩

/-- A parameter of an inner class does not occur in the form of the class around it. -/
theorem parameter_not_occurs (hdistinct : registry.DistinctParameters) (hc : c.isArray = false)
    (h : registry.Nested n c) (hstatic : registry.isStatic c = false)
    (houter : registry.enclosing? c = some outer) (hp : p ∈ registry.parameters c) :
    ¬Occurs p (registry.genericForm outer) := by
  intro hoccurs
  cases h with
  | array _ => cases hc
  | outermost h =>
      rw [h hstatic] at houter
      cases houter
  | @inner n name kind outer' hstatic' houter' hnested =>
      obtain rfl := Option.some.inj (houter.symm.trans houter')
      obtain ⟨m, name', kind', hm, hnested', q, hq, hqp⟩ :=
        exists_parameter_of_occurs hnested hoccurs
      obtain rfl : name' = name := declaring_unique hdistinct hq hp hqp
      have heq := nested_unique (.inner hstatic' houter' hnested) (nested_named hnested')
      omega

/-- The owner of an inner class is worked out alike with one step less. -/
theorem formSteps_outer (hc : c.isArray = false) (h : registry.Nested n c)
    (hstatic : registry.isStatic c = false) (houter : registry.enclosing? c = some outer) :
    registry.formSteps registry.size outer = registry.genericForm outer := by
  have hsize := nested_le_size h
  cases h with
  | array _ => cases hc
  | outermost h =>
      rw [h hstatic] at houter
      cases houter
  | inner _ houter' hnested =>
      obtain rfl := Option.some.inj (houter.symm.trans houter')
      exact formSteps_of_nested hnested hsize (by omega)

/-- The form of a class behind the form of the class around it. -/
theorem genericForm_inner (hc : c.isArray = false) (h : registry.Nested n c)
    (hstatic : registry.isStatic c = false) (houter : registry.enclosing? c = some outer) :
    registry.genericForm c =
      if (registry.parameters c).isEmpty && !(registry.genericForm outer).isParameterized then
        .cls c
      else .param (some (registry.genericForm outer)) c ((registry.parameters c).map Ty.var) := by
  have howner : registry.ownerForm (registry.formSteps registry.size) c =
      some (registry.genericForm outer) := by
    rw [ownerForm, houter, hstatic, ← formSteps_outer hc h hstatic houter]
    rfl
  rw [genericForm, formSteps, formWithin_of_plain _ _ hc, isBare, howner]
  rfl

/-- The form of a class that is static, or not nested. -/
theorem genericForm_outermost (hc : c.isArray = false)
    (h : registry.isStatic c = false → registry.enclosing? c = none) :
    registry.genericForm c =
      if (registry.parameters c).isEmpty then .cls c
      else .param ((registry.enclosing? c).map .cls) c ((registry.parameters c).map Ty.var) := by
  have howner : registry.ownerForm (registry.formSteps registry.size) c =
      (registry.enclosing? c).map .cls := by
    rw [ownerForm]
    cases hstatic : registry.isStatic c with
    | true => rfl
    | false =>
        rw [h hstatic]
        rfl
  have hraw : ((registry.enclosing? c).map Ty.cls).any Ty.isParameterized = false := by
    cases registry.enclosing? c <;> rfl
  rw [genericForm, formSteps, formWithin_of_plain _ _ hc, isBare, howner, hraw, Bool.not_false,
    Bool.and_true]

/-- A form is put together of what its variables are replaced by. -/
theorem genericForm_subst_congr
    (h : ∀ v, Occurs v (registry.genericForm c) → σ.get? v = τ.get? v) :
    (registry.genericForm c).subst σ = (registry.genericForm c).subst τ := by
  have hempty : (registry.genericForm c).subst .empty = registry.genericForm c :=
    formSteps_subst_empty _ c
  calc
    (registry.genericForm c).subst σ
        = ((registry.genericForm c).subst .empty).subst σ := by rw [hempty]
    _ = (registry.genericForm c).subst τ := by
        refine Ty.subst_subst (writable_genericForm c) (fun v _ => .var trivial) fun v hv => ?_
        change (Ty.var v).subst σ = _
        rw [Ty.subst_var, Ty.subst_var, h v hv]

theorem resolve_genericForm (σ : Substitution) (c : ClassRef) :
    σ.resolve (registry.genericForm c) = (registry.genericForm c).subst σ := by
  rw [Substitution.resolve]
  split
  · rename_i hempty
    obtain rfl : σ = .empty := by
      obtain ⟨bindings⟩ := σ
      exact congrArg Substitution.mk (List.isEmpty_iff.mp hempty)
    exact (formSteps_subst_empty _ c).symm
  · rfl

end Registry

namespace Substitution

variable {σ ρ : Substitution} {ps : List TyVar} {args : List Ty}

/-! ## Parameters bound to arguments -/

/-- Different variables that are free can be bound to any types. Each is then replaced by its
type, and nothing else changes. -/
theorem exists_bindAll_zip (hdistinct : ps.Pairwise fun p q => (p == q) = false)
    (hlength : args.length = ps.length) (hfree : ∀ p ∈ ps, σ.get? p = none) :
    ∃ ρ, σ.bindAll (ps.zip args) = .ok ρ ∧
      (∀ v, (∀ p ∈ ps, (p == v) = false) → ρ.get? v = σ.get? v) ∧
      List.Forall₂ Same args (ps.map fun p => (Ty.var p).subst ρ) := by
  have hself : List.Forall₂ Same args args := List.forall₂_same.mpr fun a _ => Ty.same_refl a
  have hagree : Agrees σ (ps.zip args) := by
    constructor
    · rintro v s t ⟨p, hp, hpv, -⟩ ⟨q, hq, hqv, -⟩
      exact Env.zip_unique hdistinct hself hp hq (BEq.trans hpv (BEq.symm hqv))
    · rintro v s t hget ⟨p, hp, hpv, -⟩
      rw [← get?_of_beq σ hpv, hfree p (List.of_mem_zip hp).1] at hget
      cases hget
  obtain ⟨ρ, hρ⟩ := bindAll_of_agrees hagree
  have hrecords := records_bindAll hρ
  refine ⟨ρ, hρ, fun v hv => ?_, ?_⟩
  · cases hget : ρ.get? v with
    | none =>
        cases hold : σ.get? v with
        | none => rfl
        | some t =>
            rw [hrecords.kept v t hold] at hget
            cases hget
    | some t =>
        rcases hrecords.source v t hget with hold | ⟨p, hp, hpv, -⟩
        · exact hold.symm
        · rw [hv p (List.of_mem_zip hp).1] at hpv
          cases hpv
  · rw [List.forall₂_map_right_iff]
    refine (List.forall₂_iff_zip.mpr ⟨hlength.symm, fun {p a} hpa => ?_⟩).flip
    change Same a ((Ty.var p).subst ρ)
    rw [Ty.subst_var]
    cases hget : ρ.get? p with
    | none =>
        cases ha : isVariable p a with
        | true =>
            -- a parameter that is its own argument is not bound
            cases a with
            | var w => exact Ty.same_var.mpr ⟨p, rfl, ha⟩
            | _ => cases ha
        | false =>
            obtain ⟨t, ht, -⟩ := hrecords.value p a ⟨p, hpa, BEq.rfl, ha⟩
            rw [ht] at hget
            cases hget
    | some t =>
        rcases hrecords.source p t hget with hold | ⟨q, hq, hqp, -⟩
        · rw [hfree p (List.of_mem_zip hpa).1] at hold
          cases hold
        · exact Env.zip_unique hdistinct hself hpa hq (BEq.symm hqp)

end Substitution

/-- Whether a type belongs to an instance of a parameterized type. -/
def Ty.hasParameterizedOwner : Ty → Bool
  | .param (some owner) _ _ => owner.isParameterized
  | _ => false

namespace Env

variable {env : Env} {c outer : ClassRef} {args : List Ty} {n : Nat} {ρ : Substitution}

/-! ## Factory and forms -/

/-- Arguments that fit are accepted. Without arguments a class stands for itself, unless its
owner has some. -/
theorem applied_ok (owner : Option Ty) (hc : c.isPlain = true)
    (hlength : args.length = (env.classes.parameters c).length)
    (hargs : ∀ a ∈ args, a.isPrimitive = false) :
    env.applied owner c args =
      .ok (if args.isEmpty && !(owner.any Ty.isParameterized) then .cls c
        else .param owner c args) := by
  obtain ⟨harray, hprimitive⟩ := ClassRef.isPlain_iff.mp hc
  have hfind : args.find? Ty.isPrimitive = none :=
    List.find?_eq_none.mpr fun a ha => by rw [hargs a ha]; exact Bool.false_ne_true
  rw [applied, harray, hprimitive, hfind, hlength]
  simp only [Bool.or_self, Bool.false_eq_true, if_false, ne_eq, not_true]
  split <;> rfl

/-- Arguments in the places of the parameters. -/
theorem same_form (owner : Option Ty)
    (hargs : List.Forall₂ Same args ((env.classes.parameters c).map fun p => (Ty.var p).subst ρ)) :
    Same (.param (owner.map (Ty.subst ρ)) c args)
      ((Ty.param owner c ((env.classes.parameters c).map Ty.var)).subst ρ) := by
  rw [Ty.subst_param, List.map_map]
  refine Ty.same_param.mpr ⟨_, _, _, rfl, rfl, ?_, hargs⟩
  cases owner with
  | none => exact .none
  | some o => exact .some (Ty.same_refl _)

/-- The form of a class is the class, or an array, or it has the class as its raw class. -/
theorem genericForm_cases (env : Env) (c : ClassRef) :
    env.classes.genericForm c = .cls c ∨
      (∃ component, env.classes.genericForm c = .array component) ∨
      ∃ owner args, env.classes.genericForm c = .param owner c args := by
  cases c with
  | array name component =>
      rcases Registry.formWithin_array env.classes (env.classes.formSteps env.classes.size) name
        component with ⟨-, h⟩ | ⟨-, h⟩
      · exact Or.inl h
      · exact Or.inr (Or.inl ⟨_, h⟩)
  | named name kind =>
      rcases Registry.formWithin_raw env.classes (env.classes.formSteps env.classes.size)
        (c := .named name kind) rfl with h | ⟨owner, h⟩
      · exact Or.inl h
      · exact Or.inr (Or.inr ⟨owner, _, h⟩)

/-- Where the owner in a form is not parameterized, it is the class around, and the factory
takes this class. -/
theorem formation_unowned (args : List Ty) (hc : c.isArray = false)
    (hnested : env.classes.Nested n c)
    (hhoused : env.classes.parameters c ≠ [] → env.classes.isStatic c = false →
      ∀ outer, env.classes.enclosing? c = some outer →
        ∀ component, env.classes.genericForm outer ≠ .array component)
    (howned : (env.classes.genericForm c).hasParameterizedOwner = false) :
    env.parameterized c args = env.applied ((env.classes.enclosing? c).map .cls) c args ∧
      env.classes.genericForm c =
        if (env.classes.parameters c).isEmpty then .cls c
        else .param ((env.classes.enclosing? c).map .cls) c
          ((env.classes.parameters c).map Ty.var) := by
  cases houter : env.classes.enclosing? c with
  | none =>
      refine ⟨by rw [parameterized, houter]; rfl, ?_⟩
      rw [Registry.genericForm_outermost hc fun _ => houter, houter]
  | some outer =>
      cases hstatic : env.classes.isStatic c with
      | true =>
          refine ⟨by rw [parameterized, houter, hstatic]; rfl, ?_⟩
          rw [Registry.genericForm_outermost hc fun h => absurd h (by rw [hstatic]; decide), houter]
      | false =>
          have hform := Registry.genericForm_inner hc hnested hstatic houter
          cases hparam : (env.classes.genericForm outer).isParameterized with
          | true =>
              rw [hparam, Bool.not_true, Bool.and_false, if_neg Bool.false_ne_true] at hform
              rw [hform] at howned
              change (env.classes.genericForm outer).isParameterized = false at howned
              rw [hparam] at howned
              cases howned
          | false =>
              rw [hparam, Bool.not_false, Bool.and_true] at hform
              refine ⟨by simp only [parameterized, houter, hstatic, hparam]; rfl, ?_⟩
              rw [hform]
              split
              · rfl
              · rename_i hsome
                have hparameters : env.classes.parameters c ≠ [] := by simpa using hsome
                rcases env.genericForm_cases outer with h | ⟨component, h⟩ | ⟨owner, vars, h⟩
                · rw [h]
                  rfl
                · exact absurd h (hhoused hparameters hstatic outer houter component)
                · rw [h] at hparam
                  cases hparam

/-- Where the owner in a form is parameterized, it is the form of the class around. -/
theorem formation_owned (hc : c.isArray = false) (hnested : env.classes.Nested n c)
    (howned : (env.classes.genericForm c).hasParameterizedOwner = true) :
    ∃ outer, env.classes.enclosing? c = some outer ∧ env.classes.isStatic c = false ∧
      (env.classes.genericForm outer).isParameterized = true ∧
      env.classes.genericForm c =
        .param (some (env.classes.genericForm outer)) c
          ((env.classes.parameters c).map Ty.var) := by
  have houtermost : (env.classes.isStatic c = false → env.classes.enclosing? c = none) →
      (env.classes.genericForm c).hasParameterizedOwner = false := by
    intro h
    rw [Registry.genericForm_outermost hc h]
    split
    · rfl
    · cases env.classes.enclosing? c <;> rfl
  cases houter : env.classes.enclosing? c with
  | none =>
      rw [houtermost fun _ => houter] at howned
      cases howned
  | some outer =>
      cases hstatic : env.classes.isStatic c with
      | true =>
          rw [houtermost fun h => absurd h (by rw [hstatic]; decide)] at howned
          cases howned
      | false =>
          have hform := Registry.genericForm_inner hc hnested hstatic houter
          cases hparam : (env.classes.genericForm outer).isParameterized with
          | true =>
              rw [hparam, Bool.not_true, Bool.and_false, if_neg Bool.false_ne_true] at hform
              exact ⟨outer, rfl, rfl, hparam, hform⟩
          | false =>
              rw [hform] at howned
              split at howned
              · cases howned
              · change (env.classes.genericForm outer).isParameterized = true at howned
                rw [hparam] at howned
                cases howned

/-- The owner that is given is an instance of the class around. -/
theorem parameterizedIn_form (σ : Substitution) (args : List Ty)
    (houter : env.classes.enclosing? c = some outer)
    (hparam : (env.classes.genericForm outer).isParameterized = true) :
    env.parameterizedIn ((env.classes.genericForm outer).subst σ) c args =
      env.applied (some ((env.classes.genericForm outer).subst σ)) c args ∧
      ((env.classes.genericForm outer).subst σ).isParameterized = true := by
  rcases env.genericForm_cases outer with h | ⟨component, h⟩ | ⟨owner, vars, h⟩
  · rw [h] at hparam
    cases hparam
  · rw [h] at hparam
    cases hparam
  · have hraw : (env.erase (.param (owner.map (Ty.subst σ)) outer (vars.map (Ty.subst σ))) !=
        outer) = false := by
      rw [erase_of_raw? (c := outer) rfl, bne, BEq.rfl, Bool.not_true]
    rw [h, Ty.subst_param, parameterizedIn, houter]
    simp only [hraw]
    exact ⟨rfl, rfl⟩

/-- The factory builds from the class and its arguments what the generic form of the class comes
to when the parameters are resolved to the arguments. An inner class of a generic class is
refused, unless an instance of the outer form is given for its owner. -/
theorem formation_agrees (hc : c.isPlain = true) (hnested : env.classes.Nested n c)
    (hdistinct : env.classes.DistinctParameters)
    (hlength : args.length = (env.classes.parameters c).length)
    (hargs : ∀ a ∈ args, a.isPrimitive = false)
    (hhoused : env.classes.parameters c ≠ [] → env.classes.isStatic c = false →
      ∀ outer, env.classes.enclosing? c = some outer →
        ∀ component, env.classes.genericForm outer ≠ .array component) :
    ((env.classes.genericForm c).hasParameterizedOwner = false →
      ∃ ρ t, Substitution.empty.bindAll ((env.classes.parameters c).zip args) = .ok ρ ∧
        env.parameterized c args = .ok t ∧ Same t (ρ.resolve (env.classes.genericForm c))) ∧
    ((env.classes.genericForm c).hasParameterizedOwner = true →
      ∃ outer, env.classes.enclosing? c = some outer ∧
        env.parameterized c args = .error (.ownerNeeded c outer) ∧
        ∀ σ : Substitution,
          (∀ v t, σ.get? v = some t → Occurs v (env.classes.genericForm outer)) →
          ∃ ρ t, σ.bindAll ((env.classes.parameters c).zip args) = .ok ρ ∧
            env.parameterizedIn (σ.resolve (env.classes.genericForm outer)) c args = .ok t ∧
            Same t (ρ.resolve (env.classes.genericForm c))) := by
  have harray := (ClassRef.isPlain_iff.mp hc).1
  have hempty : args.isEmpty = (env.classes.parameters c).isEmpty := by
    rw [Bool.eq_iff_iff, List.isEmpty_iff_length_eq_zero, List.isEmpty_iff_length_eq_zero, hlength]
  have hparameters := Registry.parameters_distinct hdistinct c
  refine ⟨fun howned => ?_, fun howned => ?_⟩
  · obtain ⟨ρ, hρ, -, hsame⟩ := Substitution.exists_bindAll_zip hparameters hlength
      (σ := .empty) fun _ _ => rfl
    obtain ⟨hbuilt, hform⟩ := formation_unowned args harray hnested hhoused howned
    have hraw : ((env.classes.enclosing? c).map Ty.cls).any Ty.isParameterized = false := by
      cases env.classes.enclosing? c <;> rfl
    rw [applied_ok _ hc hlength hargs, hraw, Bool.not_false, Bool.and_true, hempty] at hbuilt
    refine ⟨ρ, _, hρ, hbuilt, ?_⟩
    rw [Registry.resolve_genericForm, hform]
    split
    · exact Ty.same_refl _
    · have hresolved := same_form ((env.classes.enclosing? c).map .cls) hsame
      rwa [Option.map_map] at hresolved
  · obtain ⟨outer, houter, hstatic, hparam, hform⟩ := formation_owned harray hnested howned
    refine ⟨outer, houter, by simp only [parameterized, houter, hstatic, hparam]; rfl,
      fun σ hσ => ?_⟩
    have hfresh : ∀ p ∈ env.classes.parameters c, ¬Occurs p (env.classes.genericForm outer) :=
      fun p hp => Registry.parameter_not_occurs hdistinct harray hnested hstatic houter hp
    obtain ⟨ρ, hρ, hkept, hsame⟩ := Substitution.exists_bindAll_zip hparameters hlength
      (σ := σ) fun p hp => Option.eq_none_iff_forall_ne_some.mpr fun t ht =>
        hfresh p hp (hσ p t ht)
    have howner : (env.classes.genericForm outer).subst σ =
        (env.classes.genericForm outer).subst ρ :=
      Registry.genericForm_subst_congr fun v hv =>
        (hkept v fun p hp => Ty.ne_of_occurs (hfresh p hp) hv).symm
    obtain ⟨hbuilt, hinstance⟩ := parameterizedIn_form σ args houter hparam
    rw [applied_ok _ hc hlength hargs, Option.any_some, hinstance, Bool.not_true, Bool.and_false,
      if_neg Bool.false_ne_true] at hbuilt
    rw [Registry.resolve_genericForm]
    refine ⟨ρ, _, hρ, hbuilt, ?_⟩
    rw [Registry.resolve_genericForm, hform, howner]
    exact same_form (some (env.classes.genericForm outer)) hsame

def leafVar : TyVar := ⟨3, .ofClass innerClass, "V"⟩

/-- Three generic classes, one inside the other. -/
def leafEnv : Env :=
  ⟨[(ClassDecl.of outerClass).withParameters [outerVar],
    ((ClassDecl.of slotClass).withParameters [slotVar]).nestedIn outerClass,
    ((ClassDecl.of innerClass).withParameters [leafVar]).nestedIn slotClass].foldl
      Registry.register .core, .empty⟩

/-- The owner of a leaf mentions the parameter of the leaf, which is not replaced there. -/
theorem formation_agrees_leaf :
    leafEnv.classes.Nested 2 innerClass ∧ leafEnv.classes.DistinctParameters ∧
    leafEnv.parameterized innerClass [stringType] = .error (.ownerNeeded innerClass slotClass) ∧
    ∃ ρ t, Substitution.bindAll ⟨[(outerVar, stringType), (slotVar, .var leafVar)]⟩
        [(leafVar, stringType)] = .ok ρ ∧
      leafEnv.parameterizedIn
        (.param (some (.param none outerClass [stringType])) slotClass [.var leafVar])
        innerClass [stringType] = .ok t ∧
      Same t (ρ.resolve (leafEnv.classes.genericForm innerClass)) := by
  have hnested : leafEnv.classes.Nested 2 innerClass :=
    .inner rfl rfl (.inner rfl rfl (.outermost fun _ => rfl))
  have hdistinct : leafEnv.classes.DistinctParameters := by decide
  have hlength : [stringType].length = (leafEnv.classes.parameters innerClass).length := rfl
  obtain ⟨-, howned⟩ := formation_agrees (by decide) hnested hdistinct hlength
    (List.forall_mem_singleton.mpr rfl) (by rintro - - _ ⟨⟩; nofun)
  obtain ⟨outer, houter, hfault, hall⟩ := howned rfl
  obtain rfl : slotClass = outer := Option.some.inj houter
  refine ⟨hnested, hdistinct, hfault,
    hall ⟨[(outerVar, stringType), (slotVar, .var leafVar)]⟩ fun v t hget => ?_⟩
  obtain ⟨w, hmem, hwv⟩ := Substitution.mem_of_get? hget
  change Occurs v (.param (some (.param none outerClass [.var outerVar])) slotClass [.var slotVar])
  rcases List.mem_cons.mp hmem with heq | hmem
  · cases heq
    exact .owner (.arg List.mem_cons_self (.var hwv))
  · cases List.mem_singleton.mp hmem
    exact .arg List.mem_cons_self (.var hwv)

/-- A generic class, and a generic class inside its array class. -/
def cellEnv : Env :=
  ⟨[(ClassDecl.of fooClass).withParameters [fooVar],
    ((ClassDecl.of innerClass).withParameters [leafVar]).nestedIn (.arrayOf fooClass)].foldl
      Registry.register .core, .empty⟩

theorem cellEnv_enclosing {c outer : ClassRef} (h : cellEnv.classes.enclosing? c = some outer) :
    outer = .arrayOf fooClass := by
  obtain ⟨decl, hdecl, houter⟩ := Option.bind_eq_some_iff.mp h
  have hall : cellEnv.classes.decls.toList.filterMap (fun entry => entry.2.enclosing?) =
      [.arrayOf fooClass] := rfl
  have hmem : outer ∈ cellEnv.classes.decls.toList.filterMap fun entry => entry.2.enclosing? :=
    List.mem_filterMap.mpr
      ⟨(c.name, decl), Std.TreeMap.mem_toList_iff_getElem?_eq_some.mpr hdecl, houter⟩
  rw [hall] at hmem
  exact List.mem_singleton.mp hmem

theorem cellEnv_nested (c : ClassRef) : ∃ n, cellEnv.classes.Nested n c := by
  induction c with
  | array name component ih =>
      obtain ⟨n, hn⟩ := ih
      exact ⟨n, .array hn⟩
  | named name kind =>
      cases hstatic : cellEnv.classes.isStatic (.named name kind) with
      | true => exact ⟨0, .outermost fun h => absurd h (by rw [hstatic]; decide)⟩
      | false =>
          cases houter : cellEnv.classes.enclosing? (.named name kind) with
          | none => exact ⟨0, .outermost fun _ => houter⟩
          | some outer =>
              have harray : cellEnv.classes.Nested 0 (.arrayOf fooClass) :=
                .array (.outermost fun _ => rfl)
              exact ⟨1, .inner hstatic houter (cellEnv_enclosing houter ▸ harray)⟩

theorem formation_agrees_lost : ¬∀ (env : Env) (c : ClassRef) (args : List Ty),
    (∀ d, ∃ n, env.classes.Nested n d) → env.classes.DistinctParameters → c.isPlain = true →
    args.length = (env.classes.parameters c).length → (∀ a ∈ args, a.isPrimitive = false) →
    (env.classes.genericForm c).hasParameterizedOwner = false →
    ∃ ρ t, Substitution.empty.bindAll ((env.classes.parameters c).zip args) = .ok ρ ∧
      env.parameterized c args = .ok t ∧ Same t (ρ.resolve (env.classes.genericForm c)) := by
  intro hclaim
  obtain ⟨ρ, t, hρ, ht, hsame⟩ := hclaim cellEnv innerClass [stringType] cellEnv_nested
    (by decide) (by decide) rfl (List.forall_mem_singleton.mpr rfl) rfl
  have hbound : (.ok ⟨[(leafVar, stringType)]⟩ : Except MatchFault Substitution) = .ok ρ := hρ
  have hbuilt : (.ok (.param (some (.cls (.arrayOf fooClass))) innerClass [stringType]) :
      Except ShapeFault Ty) = .ok t := ht
  cases hbound
  cases hbuilt
  exact absurd hsame (by decide)

end Env

end Generics
