import Generics.Proofs.Frames
import Generics.Proofs.Plans
import Generics.Proofs.Resolving

/-!
What is found below a type. A descendant is inferred from a match that lets a
wildcard stand for anything, and is then checked; so the check is what it can be
relied on for. The check looks at the arguments of the descendant's view and, for
an inner class, at its owner, which leaves open whether the owner has arguments
at all. The match settles that, since it compares the frames. Arrays are not
checked again, but follow from their components.
-/

namespace Generics

namespace Ty

/-- A class, or a parameterized type without a wildcard among the arguments of its own and of
its owners. -/
inductive Definite : Ty → Prop where
  | cls (c : ClassRef) : Definite (cls c)
  | param {owner raw args} (howner : ∀ o ∈ owner, Definite o)
      (hargs : ∀ a ∈ args, a.isWildcard = false) : Definite (param owner raw args)

/-- A class, or a parameterized type for which a relation holds between each class and its
owner. -/
inductive Owned (P : ClassRef → Ty → Prop) : Ty → Prop where
  | cls (c : ClassRef) : Owned P (cls c)
  | param {owner raw args} (howner : ∀ o ∈ owner, Owned P o) (h : ∀ o ∈ owner, P raw o) :
      Owned P (param owner raw args)

end Ty

namespace Env

open Ty (Same)
open Subtyping

/-- The owner of a static class has no arguments: these would not count. -/
def StaticBare (env : Env) (raw : ClassRef) (owner : Ty) : Prop :=
  env.classes.isStatic raw = true → owner.isParameterized = false

/-- An owner with arguments is not of the root class, as which every type is seen without. -/
def RootBare (env : Env) (_raw : ClassRef) (owner : Ty) : Prop :=
  owner.isParameterized = true → (env.erase owner).isObject = false

variable {env : Env} {s t u : Ty} {c target : ClassRef} {θ : Substitution}

/-! ## What the check says -/

theorem viewAs_self {owner : Option Ty} {raw : ClassRef} {args : List Ty}
    (hname : raw.name = target.name) (hobject : target.isObject = false) :
    env.viewAs (.param owner raw args) target = .found (.param owner raw args) := by
  have hself : (env.erase (.param owner raw args) == target) = true :=
    ClassRef.beq_iff_name.mpr hname
  simp only [viewAs, hobject, Bool.false_and, Bool.false_eq_true, if_false, viewStart, hself,
    if_true]

/-- A type with arguments takes another one of its class by the arguments alone. -/
theorem accepted_viewPlan_of_ask {owner owner' : Option Ty} {raw raw' : ClassRef}
    {args args' : List Ty} {held : List (Ty × Ty)} (hname : raw.name = raw'.name)
    (hobject : raw'.isObject = false)
    (hnew : ∀ question ∈ held, ¬Same (.param owner' raw' args') question.2)
    (h : Accepted env held (.ask (.param owner raw args) (.param owner' raw' args'))) :
    Same (.param owner raw args) (.param owner' raw' args') ∨
      Accepted env ((.param owner raw args, .param owner' raw' args') :: held)
        (viewPlan env (.param owner raw args) owner' raw' args') := by
  cases h with
  | same hsame => exact Or.inl hsame
  | assumed hassumed =>
      obtain ⟨question, hquestion, hequal⟩ := List.contains_iff_exists_mem_beq.mp hassumed
      exact absurd (Bool.and_eq_true_iff.mp hequal).2 (hnew question hquestion)
  | rule hrule =>
      right
      have hsub : env.isSubclass raw raw' = true := isSubclass_of_name hname
      rw [rulePlan_param rfl, parameterizedPlan, erase_of_raw? rfl, hsub,
        viewAs_self hname hobject] at hrule
      exact hrule

/-- A view with the frame of a type and no other arguments than it may have is the type, when
no argument is left open and the arguments of the owners count. -/
theorem same_of_viewPlan {view : Ty} {owner : Option Ty} {raw : ClassRef} {args : List Ty}
    {held : List (Ty × Ty)} (hview : env.Housed True view)
    (ht : env.Housed False (.param owner raw args)) (hdefinite : (Ty.param owner raw args).Definite)
    (hstatic : (Ty.param owner raw args).Owned env.StaticBare)
    (hroot : (Ty.param owner raw args).Owned env.RootBare)
    (hframe : view.frame = (Ty.param owner raw args).frame)
    (hheld : ∀ question ∈ held, (Ty.param owner raw args).frame.length ≤ question.2.frame.length)
    (h : Accepted env held (viewPlan env view owner raw args)) :
    Same view (.param owner raw args) := by
  generalize hparam : Ty.param owner raw args = t at hdefinite
  induction hdefinite generalizing view owner raw args held with
  | cls _ => cases hparam
  | @param owner raw args _ hargs ihowner =>
      cases hparam
      obtain ⟨viewOwner, viewRaw, viewArgs, rfl, hname, hframes⟩ := Ty.exists_param_of_frame hframe
      cases hview with | param hviewPlace hviewOwner =>
      cases ht with | param hplace howner =>
      cases hstatic with | param hstaticOwner hstatic =>
      cases hroot with | param hrootOwner hroot =>
      rw [enclosing?_of_name hname, ← hplace] at hviewPlace
      unfold viewPlan at h
      split at h
      · cases h
      rename_i hlength
      cases h with | both hall hown =>
      have hsameArgs : List.Forall₂ Same viewArgs args := by
        refine List.forall₂_iff_zip.mpr ⟨not_not.mp hlength, fun {a b} hab => ?_⟩
        have hcontained := accepted_all.mp hall _ (List.mem_map_of_mem hab)
        cases accepted_containsPlan.mp hcontained with
        | equal hsame => exact hsame
        | bounds _ _ => cases hargs _ (List.of_mem_zip hab).2
      refine Ty.same_param.mpr ⟨owner, raw, args, rfl, hname, ?_, hsameArgs⟩
      cases owner with
      | none =>
          cases viewOwner with
          | none => exact .none
          | some _ => cases hviewPlace
      | some o =>
          cases viewOwner with
          | none => cases hviewPlace
          | some viewOwner =>
              refine .some ?_
              change viewOwner.frame = o.frame at hframes
              cases howner o rfl with
              | cls c =>
                  obtain ⟨d, rfl, hname⟩ := Ty.exists_cls_of_frame hframes
                  exact Ty.same_cls.mpr ⟨c, rfl, hname⟩
              | array harrays _ _ => exact harrays.elim
              | @param outer outerRaw outerArgs houterPlace houter =>
                  obtain ⟨viewOuter, viewOuterRaw, viewOuterArgs, rfl, houterName, -⟩ :=
                    Ty.exists_param_of_frame hframes
                  have hask : Accepted env held (.ask
                      (.param viewOuter viewOuterRaw viewOuterArgs)
                      (.param outer outerRaw outerArgs)) := by
                    unfold ownerPlan at hown
                    simp only at hown
                    split at hown
                    · rename_i hisStatic
                      cases hstatic _ rfl hisStatic
                    · exact hown
                  -- an open question is about a type with more owners
                  have hlonger : ∀ question ∈ held, (Ty.param outer outerRaw outerArgs).frame.length <
                      question.2.frame.length := by
                    intro question hquestion
                    have hle := hheld question hquestion
                    rw [Ty.frame_param] at hle
                    exact hle
                  have hnew : ∀ question ∈ held,
                      ¬Same (.param outer outerRaw outerArgs) question.2 := by
                    intro question hquestion hsame
                    have hlt := hlonger question hquestion
                    rw [Ty.frame_of_same hsame] at hlt
                    exact lt_irrefl _ hlt
                  rcases accepted_viewPlan_of_ask houterName (hroot _ rfl rfl) hnew hask with
                    hsame | hplan
                  · exact hsame
                  · refine ihowner _ rfl (hviewOwner _ rfl) (.param houterPlace houter)
                      (hstaticOwner _ rfl) (hrootOwner _ rfl) hframes ?_ hplan rfl
                    intro question hquestion
                    rcases List.mem_cons.mp hquestion with rfl | hquestion
                    · exact le_refl _
                    · exact (hlonger question hquestion).le

theorem accepted_of_isAssignable (hs : s.isWildcard = false) (ht : t.isWildcard = false)
    (h : env.isAssignable t s = true) : Accepted env [] (.ask s t) := by
  rw [isAssignable, checkAssignable_eq ht hs] at h
  exact (answers_ask (Limits.subtypeDepth + 1) [] s t).sound .fresh ⟨rfl, rfl⟩ h

/-- A parameterized type takes what it is seen as, by a walk that ends. -/
theorem exists_viewAs_of_isAssignable {owner : Option Ty} {raw : ClassRef} {args : List Ty}
    (hs : s.raw? = some c) (hne : ¬Same s (.param owner raw args))
    (h : env.isAssignable (.param owner raw args) s = true) :
    ∃ u, env.viewAs s raw = .found u := by
  rw [isAssignable, checkAssignable_eq rfl (isWildcard_of_raw? hs), isSubtype, checkSubtype,
    CheckM.ask, run_checkWithin Limits.subtypeDepth hne .fresh] at h
  have hplan : ∃ checker, (((parameterizedPlan env s owner raw args).run
      fun a b => Verdict.accepts <$> checkWithin env Limits.subtypeDepth a b).run checker).1 =
        true := by
    rw [run_parameterizedPlan, ← rule_toParameterized hs]
    exact ⟨_, h⟩
  obtain ⟨checker, hplan⟩ := hplan
  unfold parameterizedPlan at hplan
  split at hplan
  · cases hplan
  · cases hview : env.viewAs s raw with
    | found u => exact ⟨u, rfl⟩
    | missing =>
        rw [hview] at hplan
        cases hplan
    | outOfSteps =>
        rw [hview] at hplan
        cases hplan

/-! ## The way down and up again -/

theorem isAssignable_of_plainSubtype (h : env.plainSubtype t target = .ok u) :
    env.isAssignable t u = true := by
  obtain ⟨hsub, hinfer⟩ := inferSubtype_of_plainSubtype h
  rw [plainSubtype, hsub, hinfer] at h
  change (if env.isAssignable t u then Except.ok u else throw _) = _ at h
  split at h
  · assumption
  · cases h

/-- Below a type with arguments a descendant is inferred from the view of its form. -/
theorem inferSubtype_of_param {owner : Option Ty} {raw : ClassRef} {args : List Ty}
    (h : env.inferSubtype (.param owner raw args) target = .ok u) :
    ∃ shape θ, env.viewAs (env.classes.genericForm target) raw = .found shape ∧
      Substitution.unify shape (.param owner raw args) .empty = .ok θ ∧
      u = (env.classes.genericForm target).subst θ := by
  have herase : env.erase (.param owner raw args) = raw := rfl
  unfold inferSubtype at h
  dsimp only at h
  rw [herase] at h
  split at h
  · rename_i hclass
    cases hclass
  · cases hview : env.viewAs (env.classes.genericForm target) raw with
    | found shape =>
        rw [hview] at h
        cases hunify : Substitution.unify shape (.param owner raw args) .empty with
        | error fault =>
            simp only [Outcome.get?, hunify] at h
            cases h
        | ok θ =>
            simp only [Outcome.get?, hunify, resolve_genericForm] at h
            cases h
            exact ⟨shape, θ, rfl, hunify, rfl⟩
    | _ =>
        rw [hview] at h
        cases h

/-- A class that is an instance of no other form starts from itself. -/
theorem viewStart_genericForm (hc : c.isArray = false) :
    env.viewStart (env.classes.genericForm c) = some (env.classes.genericForm c) := by
  have hraw : (env.classes.genericForm c).raw? = some c := raw?_genericForm hc
  rw [viewStart_eq_climbStart hraw hc]
  cases hform : env.classes.genericForm c with
  | cls d =>
      rw [hform] at hraw
      obtain rfl := Option.some.inj hraw
      exact congrArg some hform
  | _ => rfl

/-- An instance of the form of an array class is that class, or an array. -/
theorem genericForm_of_isArray (hc : c.isArray = true) (σ : Substitution) :
    env.classes.genericForm c = .cls c ∨
      ∃ u, (env.classes.genericForm c).subst σ = .array u := by
  cases c with
  | named _ _ => cases hc
  | array name component =>
      have harray := Registry.arrayOf_formWithin env.classes
        (env.classes.formSteps env.classes.size) component σ
      rcases Registry.formWithin_array env.classes (env.classes.formSteps env.classes.size) name
        component with ⟨-, hform⟩ | ⟨hne, hform⟩
      · exact Or.inl hform
      · right
        refine ⟨((env.classes.formSteps (env.classes.size + 1)) component).subst σ, ?_⟩
        rw [Registry.genericForm, Registry.formSteps, hform, Ty.subst_array]
        exact harray.resolve_left hne

/-- A type with arguments takes no array. -/
theorem not_isAssignable_array {owner : Option Ty} {raw : ClassRef} {args : List Ty} :
    env.isAssignable (.param owner raw args) (.array s) = false := by
  rw [← Bool.not_eq_true]
  intro h
  cases accepted_of_isAssignable rfl rfl h with
  | same hsame =>
      obtain ⟨_, heq, -⟩ := Ty.same_array.mp hsame
      cases heq
  | assumed h => cases h
  | rule h =>
      rw [rulePlan_array rfl] at h
      cases h

/-- Below a type with arguments there is no array class. -/
theorem isArray_of_plainSubtype {owner : Option Ty} {raw : ClassRef} {args : List Ty}
    (hhoused : env.Housed False (.param owner raw args)) (hraw : raw.isArray = false)
    (h : env.plainSubtype (.param owner raw args) target = .ok s) : target.isArray = false := by
  have hassignable := isAssignable_of_plainSubtype h
  obtain ⟨hsub, hinfer⟩ := inferSubtype_of_plainSubtype h
  obtain ⟨shape, θ, hview, hunify, rfl⟩ := inferSubtype_of_param hinfer
  rw [← Bool.not_eq_true]
  intro htarget
  have hforms : env.classes.genericForm target = .cls target ∨ _ :=
    genericForm_of_isArray htarget θ
  rcases hforms with hform | ⟨u, hu⟩
  · rw [hform] at hview
    obtain ⟨d, rfl⟩ := class_of_viewAs_array htarget hraw hsub hview
    have hframe := frame_of_unify (.cls d) hhoused hunify
    obtain ⟨_, heq, -⟩ := Ty.exists_cls_of_frame hframe.symm
    cases heq
  · rw [hu, not_isAssignable_array] at hassignable
    cases hassignable

/-- The root class is seen as a class. -/
theorem class_of_viewAs_object (htarget : target.isObject = true) (hc : c.isArray = false)
    (hsub : env.isSubclass c target = true)
    (h : env.viewAs (env.classes.genericForm c) target = .found u) : ∃ d, u = .cls d := by
  rw [viewAs, viewStart_genericForm hc, htarget, Bool.true_and] at h
  split at h
  · cases h
    exact ⟨_, rfl⟩
  · -- only a primitive has another root, and nothing else is above it
    rename_i hprimitive
    rw [Bool.not_eq_true, Bool.not_eq_false'] at hprimitive
    have hraw : (env.classes.genericForm c).raw? = some c := raw?_genericForm hc
    dsimp only at h
    rw [erase_of_raw? hraw] at h
    cases hform : env.classes.genericForm c with
    | cls d =>
        rw [hform] at hraw hprimitive
        obtain rfl := Option.some.inj hraw
        have hname := (isSubclass_primitive (Or.inl hprimitive)).mp hsub
        simp only [ClassRef.beq_iff_name.mpr hname, if_true] at h
        cases h
        exact ⟨d, hform⟩
    | _ =>
        rw [hform] at hprimitive
        cases hprimitive

/-- A class below a type with definite arguments has that type as its view. -/
theorem supertype_of_plainSubtype (hedges : env.MadeEdges) {owner : Option Ty} {raw : ClassRef}
    {args : List Ty} (ht : env.Made (.param owner raw args))
    (hdefinite : (Ty.param owner raw args).Definite)
    (hstatic : (Ty.param owner raw args).Owned env.StaticBare)
    (hroot : (Ty.param owner raw args).Owned env.RootBare)
    (h : env.plainSubtype (.param owner raw args) target = .ok s) :
    ∃ u, env.supertype s raw = .ok u ∧ Same u (.param owner raw args) := by
  have hraw : env.RawEdges := fun c e he => (hedges.edge c e he).1
  have hhoused : ∀ c, ∀ e ∈ env.classes.directSupertypes c, env.Housed False e := by
    intro c e he
    obtain ⟨⟨d, hd, -⟩, hmade⟩ := hedges.edge c e he
    exact hmade.housed (by rw [hd]; rfl)
  have htarget := isArray_of_plainSubtype (ht.housed rfl) ht.isArray h
  have hassignable := isAssignable_of_plainSubtype h
  obtain ⟨hsub, hinfer⟩ := inferSubtype_of_plainSubtype h
  replace hsub : env.isSubclass target raw = true := hsub
  obtain ⟨shape, θ, hview, hunify, rfl⟩ := inferSubtype_of_param hinfer
  have hform : (env.classes.genericForm target).raw? = some target := raw?_genericForm htarget
  have hstart : env.viewStart (env.classes.genericForm target) = _ :=
    viewStart_genericForm htarget
  -- what is matched has the frame of the type
  have hframe : shape.frame = (Ty.param owner raw args).frame :=
    frame_of_unify (housed_viewAs hhoused (housed_genericForm target) hstart hview)
      (ht.housed rfl) hunify
  have hobject : raw.isObject = false := by
    rw [← Bool.not_eq_true]
    intro hobject
    obtain ⟨d, rfl⟩ := class_of_viewAs_object hobject htarget hsub hview
    obtain ⟨_, heq, -⟩ := Ty.exists_cls_of_frame hframe.symm
    cases heq
  generalize hs : (env.classes.genericForm target).subst θ = s at *
  have hsraw : s.raw? = some target := hs ▸ raw?_subst hform θ
  have hsstart : env.viewStart s = some s := by
    rw [viewStart_eq_climbStart hsraw htarget, ← hs]
    cases hcase : env.classes.genericForm target with
    | cls d =>
        rw [hcase] at hform
        obtain rfl := Option.some.inj hform
        exact congrArg some hcase
    | param _ _ _ =>
        rw [Ty.subst_param]
        rfl
    | _ =>
        rw [hcase] at hform
        cases hform
  rw [supertype_of_raw? hsraw ht.isArray, if_pos hsub]
  by_cases hsame : Same s (.param owner raw args)
  · cases s with
    | param _ _ _ =>
        obtain ⟨_, _, _, heq, hname, -⟩ := Ty.same_param.mp hsame
        cases heq
        rw [viewAs_self hname hobject]
        exact ⟨_, rfl, hsame⟩
    | cls _ =>
        obtain ⟨_, heq, -⟩ := Ty.same_cls.mp hsame
        cases heq
    | _ => cases hsraw
  · obtain ⟨u, hu⟩ := exists_viewAs_of_isAssignable hsraw hsame hassignable
    rw [hu]
    refine ⟨u, rfl, ?_⟩
    have hsHoused : env.Housed True s := hs ▸ (housed_genericForm target).subst
    have huHoused := housed_viewAs hhoused hsHoused hsstart hu
    have hframes : shape.frame = u.frame :=
      frame_of_viewAs hraw hhoused ⟨target, target, hform, hsraw, htarget, htarget, rfl⟩
        (hs ▸ (housed_genericForm target).frame_subst.symm) hstart hsstart hobject hview hu
    cases accepted_of_isAssignable (isWildcard_of_raw? hsraw) rfl hassignable with
    | same h => exact absurd h hsame
    | assumed h => cases h
    | rule h =>
        rw [rulePlan_param hsraw, parameterizedPlan, erase_of_raw? hsraw, hsub, hu] at h
        refine same_of_viewPlan huHoused (ht.housed rfl) hdefinite hstatic hroot
          (hframes.symm.trans hframe) ?_ h
        intro question hquestion
        obtain rfl := List.mem_singleton.mp hquestion
        exact le_refl _

end Env

/-! ## Erasure -/

namespace ClassRef

/-- A class as it is built again from its parts: the same one, if `arrayOf` builds it. -/
structure Rebuilt (c d : ClassRef) : Prop where
  isPrimitive : d.isPrimitive = c.isPrimitive
  eq_self : c.ByArrayOf → d = c

theorem rebuilt_self (c : ClassRef) : c.Rebuilt c := ⟨rfl, fun _ => rfl⟩

theorem Rebuilt.arrayOf {c d : ClassRef} (h : c.Rebuilt d) (name : String) :
    (array name c).Rebuilt d.arrayOf where
  isPrimitive := rfl
  eq_self hc := by rw [h.eq_self hc.2, ClassRef.arrayOf, ← hc.1]

end ClassRef

namespace Ty

/-- The class that a type names, an array constructor as the array class. -/
def named? : Ty → Option ClassRef
  | cls c => some c
  | param _ raw _ => some raw
  | array component => component.named?.map .arrayOf
  | _ => none

/-- Level by level along an array class, the array classes in a type are named by their
components where one of the two components is primitive. -/
def PrimitivesNamed : Ty → ClassRef → Prop
  | cls (.array name c), .array _ d =>
      (c.isPrimitive = true ∨ d.isPrimitive = true → name = c.name ++ "[]") ∧
        (cls c).PrimitivesNamed d
  | array t, .array _ d => t.PrimitivesNamed d
  | _, _ => True

/-- The number of array constructors around a type. -/
def layers : Ty → Nat
  | array component => component.layers + 1
  | _ => 0

variable {s t u : Ty} {c : ClassRef}

theorem named?_arrayOf (h : t.named? = some c) : t.arrayOf.named? = some c.arrayOf := by
  cases t with
  | cls d =>
      cases h
      rfl
  | wild _ _ => cases h
  | _ => exact congrArg (Option.map ClassRef.arrayOf) h

theorem isWildcard_of_named? (h : t.named? = some c) : t.isWildcard = false := by
  cases t with
  | wild _ _ => cases h
  | _ => rfl

end Ty

namespace Env

open Ty (Same)
open Subtyping

variable {env : Env} {s t u : Ty} {c target : ClassRef} {σ : Substitution}

/-- A type erases to the class it names, if the hops are enough for its arrays. -/
theorem erase_of_named? (h : t.named? = some c) (hlayers : t.layers ≤ Limits.erasureHops) :
    env.erase t = c := by
  have hwithin : ∀ hops (t : Ty) c, t.named? = some c → t.layers < hops →
      env.bounds.eraseWithin hops t = c := by
    intro hops
    induction hops with
    | zero => exact fun _ _ _ hlt => absurd hlt (Nat.not_lt_zero _)
    | succ hops ih =>
        intro t c h hlt
        cases t with
        | array component =>
            obtain ⟨d, hd, rfl⟩ := Option.map_eq_some_iff.mp h
            rw [BoundTable.eraseWithin, ih component d hd (Nat.lt_of_succ_lt_succ hlt)]
        | cls _ =>
            cases h
            rfl
        | param _ _ _ =>
            cases h
            rfl
        | _ => cases h
  exact hwithin _ t c h (Nat.lt_succ_of_le hlayers)

/-- An instance of the form of a class names the class. -/
theorem named?_genericForm (c : ClassRef) (σ : Substitution) :
    ∃ d, ((env.classes.genericForm c).subst σ).named? = some d ∧ c.Rebuilt d := by
  unfold Registry.genericForm Registry.formSteps
  induction c with
  | named name kind =>
      refine ⟨.named name kind, ?_, ClassRef.rebuilt_self _⟩
      rcases Registry.formWithin_raw env.classes (env.classes.formSteps env.classes.size)
        (show (ClassRef.named name kind).isArray = false from rfl) with hform | ⟨owner, hform⟩
      · rw [hform]
        rfl
      · rw [hform, Ty.subst_param]
        rfl
  | array name component ih =>
      rcases Registry.formWithin_array env.classes (env.classes.formSteps env.classes.size) name
        component with ⟨-, hform⟩ | ⟨-, hform⟩
      · rw [hform]
        exact ⟨_, rfl, ClassRef.rebuilt_self _⟩
      · obtain ⟨d, hd, hrebuilt⟩ := ih
        rw [hform, Ty.subst_array]
        exact ⟨_, Ty.named?_arrayOf hd, hrebuilt.arrayOf name⟩

theorem named?_plainSubtype (h : env.plainSubtype t target = .ok s) :
    ∃ d, s.named? = some d ∧ target.Rebuilt d := by
  rcases inferSubtype_cases (inferSubtype_of_plainSubtype h).2 with rfl | ⟨-, _, θ, -, -, rfl⟩
  · exact ⟨_, rfl, ClassRef.rebuilt_self _⟩
  · exact named?_genericForm target θ

/-- What is found below a type names the class that was asked for. -/
theorem named?_subtype (h : env.subtype t target = .ok s) :
    ∃ d, s.named? = some d ∧ target.Rebuilt d := by
  induction target generalizing t s with
  | named name kind =>
      rcases subtype_cases h with ⟨-, hplain⟩ | ⟨_, _, _, _, heq, -⟩
      · exact named?_plainSubtype hplain
      · cases heq
  | array name component ih =>
      rcases subtype_cases h with ⟨-, hplain⟩ | ⟨_, _, _, u, heq, -, hrec, rfl⟩
      · exact named?_plainSubtype hplain
      · cases heq
        obtain ⟨d, hd, hrebuilt⟩ := ih hrec
        exact ⟨_, Ty.named?_arrayOf hd, hrebuilt.arrayOf name⟩

theorem isWildcard_of_subtype (h : env.subtype t target = .ok s) : s.isWildcard = false := by
  obtain ⟨_, hnamed, -⟩ := named?_subtype h
  exact Ty.isWildcard_of_named? hnamed

/-! ## Assignability -/

/-- Nothing is found below an open type. -/
theorem upperBounds?_of_subtype (h : env.subtype t target = .ok s) : env.upperBounds? t = none := by
  cases t with
  | wild _ _ =>
      rw [subtype.eq_def] at h
      cases h
  | var _ =>
      rw [subtype.eq_def] at h
      cases h
  | _ => rfl

theorem isWildcard_of_closed (h : env.upperBounds? t = none) : t.isWildcard = false := by
  cases t with
  | wild _ _ => cases h
  | _ => rfl

theorem accepted_of_plainSubtype (hopen : env.upperBounds? t = none)
    (h : env.plainSubtype t target = .ok s) : Accepted env [] (.ask s t) := by
  obtain ⟨_, hnamed, -⟩ := named?_plainSubtype h
  exact accepted_of_isAssignable (Ty.isWildcard_of_named? hnamed) (isWildcard_of_closed hopen)
    (isAssignable_of_plainSubtype h)

/-- An array class takes the arrays of what its component takes, whatever it is named, unless
there are primitive components. -/
theorem accepted_arrayClass {name : String} (hs : s.isWildcard = false)
    (hc : c.isPrimitive = false) (hclass : ∀ d ∈ s.class?, d.isPrimitive = false)
    (h : Accepted env [] (.ask s (.cls c))) :
    Accepted env [] (.ask s.arrayOf (.cls (.array name c))) := by
  cases s with
  | cls d =>
      have hsub : env.isSubclass d c = true := by
        cases h with
        | same hsame =>
            obtain ⟨_, heq, hname⟩ := Ty.same_cls.mp hsame
            cases heq
            exact isSubclass_of_name hname
        | assumed h => cases h
        | rule h =>
            have hplan : rulePlan env (.cls d) (.cls c) = .answer (env.isSubclass d c) := rfl
            rw [hplan] at h
            generalize env.isSubclass d c = b at h
            cases h
            rfl
      have harrays : env.isSubclass d.arrayOf (.array name c) = true := by
        cases hobject : (ClassRef.array name c).isObject with
        | true => exact isSubclass_object rfl rfl hobject
        | false =>
            exact (isSubclass_arrays hobject).mpr (Or.inr ⟨hclass d rfl, hc, hsub⟩)
      have hplan : rulePlan env (.cls d.arrayOf) (.cls (.array name c)) =
          .answer (env.isSubclass d.arrayOf (.array name c)) := rfl
      refine .rule ?_
      rw [Ty.arrayOf, hplan, harrays]
      exact .answer
  | wild _ _ => cases hs
  | _ =>
      -- the array is asked for by its component
      exact .rule (h.mono (List.forall_mem_nil _))

/-- An array constructor takes the arrays of what its component takes. -/
theorem accepted_array (hs : s.isWildcard = false) (h : Accepted env [] (.ask s t)) :
    Accepted env [] (.ask s.arrayOf (.array t)) := by
  have hplan : rulePlan env s.arrayOf (.array t) = .ask s t := by
    cases s with
    | wild _ _ => cases hs
    | _ => rfl
  refine .rule ?_
  rw [hplan]
  exact h.mono (List.forall_mem_nil _)

/-- What is found below a type is accepted by it: arrays follow their components, of which
the last one is checked. -/
theorem accepted_of_subtype (hnamed : t.PrimitivesNamed target)
    (h : env.subtype t target = .ok s) : Accepted env [] (.ask s t) := by
  induction target generalizing t s with
  | named name kind =>
      rcases subtype_cases h with ⟨-, hplain⟩ | ⟨_, _, _, _, heq, -⟩
      · exact accepted_of_plainSubtype (upperBounds?_of_subtype h) hplain
      · cases heq
  | array name d ih =>
      rcases subtype_cases h with ⟨-, hplain⟩ | ⟨_, _, inner, u, heq, hinner, hrec, rfl⟩
      · exact accepted_of_plainSubtype (upperBounds?_of_subtype h) hplain
      cases heq
      have huwild := isWildcard_of_subtype hrec
      cases t with
      | array _ =>
          cases hinner
          exact accepted_array huwild (ih hnamed hrec)
      | cls c =>
          cases c with
          | named _ _ => cases hinner
          | array own c =>
              cases hinner
              obtain ⟨hown, hcomponent⟩ := hnamed
              have haccepted := ih hcomponent hrec
              by_cases hprimitive : c.isPrimitive = true ∨ d.isPrimitive = true
              · rw [hown hprimitive]
                exact accepted_arrayOf huwild rfl
                  (fun hsame => Ty.writable_of_same (.cls trivial) hsame) haccepted
              · rw [not_or, Bool.not_eq_true, Bool.not_eq_true] at hprimitive
                refine accepted_arrayClass huwild hprimitive.1 (fun e he => ?_) haccepted
                obtain ⟨_, hfound, hrebuilt⟩ := named?_subtype hrec
                cases u with
                | cls _ =>
                    cases he
                    cases hfound
                    exact hrebuilt.isPrimitive.trans hprimitive.2
                | _ => cases he
      | _ => cases hinner

/-- What is found below a type is of the class that was asked for and may be assigned to the
type, and it is seen as the type again if that has arguments and leaves none open. -/
theorem subtype_sound (hedges : env.MadeEdges) (h : env.subtype t target = .ok s) :
    t.form ≠ .var ∧ t.form ≠ .wild ∧
      (target.ByArrayOf → s.layers ≤ Limits.erasureHops → env.erase s = target) ∧
      (t.PrimitivesNamed target → ((env.checkAssignable t s).run .fresh).2.hits = 0 →
        env.isAssignable t s = true) ∧
      (t.isParameterized = true → env.Made t → t.Definite → t.Owned env.StaticBare →
        t.Owned env.RootBare → ∃ u, env.supertype s (env.erase t) = .ok u ∧ Same u t) := by
  have hopen := upperBounds?_of_subtype h
  refine ⟨?_, ?_, fun htarget => ?_, fun hnamed hhits => ?_, ?_⟩
  · rintro hform
    cases t with
    | var _ => cases hopen
    | _ => cases hform
  · rintro hform
    cases t with
    | wild _ _ => cases hopen
    | _ => cases hform
  · obtain ⟨d, hnamed, hrebuilt⟩ := named?_subtype h
    rw [hrebuilt.eq_self htarget] at hnamed
    exact erase_of_named? hnamed
  · have hcheck : env.checkAssignable t s = env.isSubtype s t :=
      checkAssignable_eq (isWildcard_of_closed hopen) (isWildcard_of_subtype h)
    rw [hcheck] at hhits
    rw [isAssignable, hcheck]
    exact isSubtype_of_accepted (accepted_of_subtype hnamed h) hhits
  · intro hparam hmade hdefinite hstatic hroot
    cases t with
    | param owner raw args =>
        rcases subtype_cases h with ⟨-, hplain⟩ | ⟨_, _, _, _, -, hcomponent, -⟩
        · exact supertype_of_plainSubtype hedges hmade hdefinite hstatic hroot hplain
        · cases hcomponent
    | _ => cases hparam

def slotClass : ClassRef := .named "Slot" .ordinary

def slotVar : TyVar := ⟨2, .ofClass slotClass, "U"⟩

def pegClass : ClassRef := .named "Peg" .ordinary

def pegVar : TyVar := ⟨3, .ofClass pegClass, "S"⟩

/-- A class that is nested in a generic class, and a class that extends an instance of it. -/
def slotEnv (outer : ClassRef) (isStatic : Bool) (edge : Ty) : Env :=
  ⟨[(ClassDecl.of outer).withParameters [outerVar],
    { (ClassDecl.of slotClass).withParameters [slotVar] with enclosing? := some outer, isStatic },
    ((ClassDecl.of pegClass).withParameters [pegVar]).extending edge].foldl
      Registry.register .core, .empty⟩

def slotType (outer : ClassRef) (outerArg arg : Ty) : Ty :=
  .param (some (.param none outer [outerArg])) slotClass [arg]

theorem made_object : HasRaw .object ∧ env.Made .object := ⟨⟨_, rfl, rfl⟩, .cls _⟩

theorem hasRaw_slotType (outer : ClassRef) (outerArg arg : Ty) :
    HasRaw (slotType outer outerArg arg) := ⟨slotClass, rfl, rfl⟩

theorem made_slotType {outer : ClassRef} {outerArg arg : Ty} (houterArg : env.Made outerArg)
    (harg : env.Made arg)
    (houter : env.parameterized outer [outerArg] = .ok (.param none outer [outerArg]))
    (hslot : env.parameterizedIn (.param none outer [outerArg]) slotClass [arg] =
      .ok (slotType outer outerArg arg)) : env.Made (slotType outer outerArg arg) :=
  .parameterizedIn (.parameterized (List.forall_mem_singleton.mpr houterArg) houter)
    (List.forall_mem_singleton.mpr harg) hslot

/-- Without wildcards all arguments of a slot are definite. -/
theorem definite_slotType {outer : ClassRef} {outerArg arg : Ty}
    (houterArg : outerArg.isWildcard = false) (harg : arg.isWildcard = false) :
    (slotType outer outerArg arg).Definite := by
  refine .param ?_ (List.forall_mem_singleton.mpr harg)
  rintro _ ⟨⟩
  exact .param nofun (List.forall_mem_singleton.mpr houterArg)

theorem owned_slotType {P : ClassRef → Ty → Prop} {outer : ClassRef} {outerArg arg : Ty}
    (h : P slotClass (.param none outer [outerArg])) : (slotType outer outerArg arg).Owned P := by
  refine .param ?_ ?_
  · rintro _ ⟨⟩
    exact .param nofun nofun
  · rintro _ ⟨⟩
    exact h

/-- Below a slot for strings there is a peg for strings. -/
theorem subtype_sound_peg :
    let env := slotEnv outerClass false (slotType outerClass (.var pegVar) (.var pegVar))
    let t := slotType outerClass stringType stringType
    ∃ s, env.subtype t pegClass = .ok s ∧ env.erase s = pegClass ∧ env.isAssignable t s = true ∧
      ∃ u, env.supertype s (env.erase t) = .ok u ∧ Same u t := by
  intro env t
  have hedges : env.MadeEdges := by
    refine Registry.forall_supertypes (show _ = [Ty.object,
      slotType outerClass (.var pegVar) (.var pegVar), .object] from rfl) ?_
    simp only [List.forall_mem_cons]
    exact ⟨made_object, ⟨hasRaw_slotType _ _ _, made_slotType (.var _) (.var _) rfl rfl⟩,
      made_object, List.forall_mem_nil _⟩
  have hdown : env.subtype t pegClass = .ok (.param none pegClass [stringType]) := rfl
  obtain ⟨-, -, herase, hassignable, hup⟩ := subtype_sound hedges hdown
  refine ⟨_, hdown, herase trivial (Nat.zero_le _), hassignable trivial (by decide),
    hup rfl ?_ ?_ ?_ ?_⟩
  · exact made_slotType (.cls _) (.cls _) rfl rfl
  · exact definite_slotType rfl rfl
  · exact owned_slotType nofun
  · exact owned_slotType fun _ => rfl

/-! ## Owners and array classes that are passed over -/

/-- An array class with a name of its own is not what is found, and need not take what is found.
The owner of a static class, and an owner of the root class, are not found again. -/
theorem subtype_sound_lost :
    (¬∀ (env : Env) (t s : Ty) (target : ClassRef), env.MadeEdges →
      env.subtype t target = .ok s → (env.erase s == target) = true) ∧
    (¬∀ (env : Env) (t s : Ty) (target : ClassRef), env.MadeEdges → target.ByArrayOf →
      env.subtype t target = .ok s → ((env.checkAssignable t s).run .fresh).2.hits = 0 →
      env.isAssignable t s = true) ∧
    (¬∀ (env : Env) (t s : Ty) (target : ClassRef), env.MadeEdges → env.Made t → t.Definite →
      t.Owned env.RootBare → env.subtype t target = .ok s →
      ∃ u, env.supertype s (env.erase t) = .ok u ∧ Same u t) ∧
    ¬∀ (env : Env) (t s : Ty) (target : ClassRef), env.MadeEdges → env.Made t → t.Definite →
      t.Owned env.StaticBare → env.subtype t target = .ok s →
      ∃ u, env.supertype s (env.erase t) = .ok u ∧ Same u t := by
  refine ⟨fun hclaim => ?_, fun hclaim => ?_, fun hclaim => ?_, fun hclaim => ?_⟩
  · have hedges : textEnv.MadeEdges := Registry.forall_supertypes (show _ = [Ty.object] from rfl)
      (List.forall_mem_singleton.mpr made_object)
    have hsame := hclaim textEnv (.cls (.arrayOf .object)) (.cls (.arrayOf stringClass)) textClass
      hedges rfl
    exact absurd hsame (by decide)
  · have hedges : intsEnv.MadeEdges := Registry.forall_supertypes (show _ = [] from rfl)
      (List.forall_mem_nil _)
    have htaken := hclaim intsEnv (.cls intsClass) (.cls (.arrayOf Primitive.int.toClass))
      (.arrayOf Primitive.int.toClass) hedges ⟨rfl, trivial⟩ rfl (by decide)
    exact absurd htaken (by decide)
  · let env := slotEnv outerClass true (slotType outerClass .unbounded stringType)
    have hmade : env.Made (slotType outerClass stringType stringType) :=
      made_slotType (.cls _) (.cls _) rfl rfl
    have hedges : env.MadeEdges := by
      refine Registry.forall_supertypes (show _ = [Ty.object,
        slotType outerClass .unbounded stringType, .object] from rfl) ?_
      simp only [List.forall_mem_cons]
      exact ⟨made_object, ⟨hasRaw_slotType _ _ _, made_slotType .unbounded (.cls _) rfl rfl⟩,
        made_object, List.forall_mem_nil _⟩
    obtain ⟨u, hu, hsame⟩ := hclaim env (slotType outerClass stringType stringType)
      (.param none pegClass [.var pegVar]) pegClass hedges hmade (definite_slotType rfl rfl)
      (owned_slotType fun _ => rfl) rfl
    have hfound : env.supertype (.param none pegClass [.var pegVar]) slotClass =
        .ok (slotType outerClass .unbounded stringType) := rfl
    obtain rfl := Except.ok.inj (hu.symm.trans hfound)
    exact absurd hsame (by decide)
  · let env := slotEnv .object false (slotType .object .unbounded stringType)
    have hmade : env.Made (slotType .object (.var outerVar) stringType) :=
      made_slotType (.var _) (.cls _) rfl rfl
    have hedges : env.MadeEdges := by
      refine Registry.forall_supertypes (show _ = [slotType .object .unbounded stringType,
        .object] from rfl) ?_
      simp only [List.forall_mem_cons]
      exact ⟨⟨hasRaw_slotType _ _ _, made_slotType .unbounded (.cls _) rfl rfl⟩, made_object,
        List.forall_mem_nil _⟩
    obtain ⟨u, hu, hsame⟩ := hclaim env (slotType .object (.var outerVar) stringType)
      (.param none pegClass [.var pegVar]) pegClass hedges hmade (definite_slotType rfl rfl)
      (owned_slotType nofun) rfl
    have hfound : env.supertype (.param none pegClass [.var pegVar]) slotClass =
        .ok (slotType .object .unbounded stringType) := rfl
    obtain rfl := Except.ok.inj (hu.symm.trans hfound)
    exact absurd hsame (by decide)

end Env

end Generics
