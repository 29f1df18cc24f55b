import Generics.Substitution.Matching
import Generics.Proofs.Substitution

/-!
Matching a shape with one of its instances. The match succeeds and finds for
every variable of the shape what was put in, up to equality: a part that is
equal to its instance binds nothing, and needs nothing to be bound. Arrays are
the exception, since a wildcard in their place asks for nothing.
-/

namespace Generics

namespace Ty

/-- A variable equal to a given one is the component of an array in a type. -/
inductive InArray (v : TyVar) : Ty → Prop where
  | here {w} (h : (w == v) = true) : InArray v (array (var w))
  | owner {owner raw args} (h : InArray v owner) : InArray v (param (some owner) raw args)
  | arg {owner raw args t} (hmem : t ∈ args) (h : InArray v t) : InArray v (param owner raw args)
  | component {component} (h : InArray v component) : InArray v (array component)
  | upper {upper lower t} (hmem : t ∈ upper) (h : InArray v t) : InArray v (wild upper lower)
  | lower {upper lower t} (hmem : t ∈ lower) (h : InArray v t) : InArray v (wild upper lower)

variable {σ : Substitution} {s t : Ty}

/-! ## Arrays -/

theorem isWildcard_arrayOf (t : Ty) : t.arrayOf.isWildcard = t.isWildcard := by
  cases t <;> rfl

theorem component?_arrayOf (h : t.isWildcard = false) : t.arrayOf.component? = some t := by
  cases t with
  | wild _ _ => cases h
  | _ => rfl

/-- An array type that is built over a component has this component. -/
theorem arrayOf_eq_array (h : s.arrayOf = array t) : s = t := by
  cases s <;> cases h
  all_goals rfl

/-- An array whose variables are not replaced by wildcards does not become one. -/
theorem isWildcard_component (h : t.Built) (hwild : t.isWildcard = false)
    (harrays : ∀ v, InArray v (array t) → ((var v).subst σ).isWildcard = false) :
    (t.subst σ).isWildcard = false := by
  induction h with
  | array _ hcomponent ih =>
      rw [subst_array, isWildcard_arrayOf]
      exact ih hcomponent fun v hv => harrays v (.component hv)
  | wildUpper _ _ => cases hwild
  | wildLower _ _ _ _ => cases hwild
  | var v => exact harrays v (.here BEq.rfl)
  | _ => rfl

/-! ## Types equal to their instances -/

/-- A type equal to its instance has its variables replaced by equal ones. -/
theorem same_var_of_same (ht : t.Writable) (h : Same t (t.subst σ)) :
    ∀ v, Occurs v t → Same (var v) ((var v).subst σ) := by
  induction ht with
  | cls _ =>
      intro v hv
      cases hv
  | @param owner raw args _ _ _ howner hargs =>
      rw [subst_param] at h
      obtain ⟨_, _, _, heq, -, howners, hall⟩ := same_param.mp h
      cases heq
      intro v hv
      cases hv with
      | owner hv =>
          cases howners with
          | some hsame => exact howner _ rfl hsame v hv
      | arg hmem hv =>
          rw [List.forall₂_map_right_iff, List.forall₂_same] at hall
          exact hargs _ hmem (hall _ hmem) v hv
  | array _ ih =>
      obtain ⟨component', heq, hsame⟩ := same_array.mp h
      rw [← arrayOf_eq_array heq] at hsame
      intro v hv
      cases hv with
      | component hv => exact ih hsame v hv
  | wildUpper _ ih =>
      obtain ⟨_, heq, hsame⟩ := same_wildUpper.mp h
      rw [subst_wildUpper] at heq
      cases heq
      intro v hv
      cases hv with
      | upper hmem hv =>
          obtain rfl := List.mem_singleton.mp hmem
          exact ih hsame v hv
      | lower hmem _ => cases hmem
  | wildLower _ _ ihu ihl =>
      obtain ⟨_, _, heq, hupper, hlower⟩ := same_wildLower.mp h
      rw [subst_wildLower] at heq
      cases heq
      intro v hv
      cases hv with
      | upper hmem hv =>
          obtain rfl := List.mem_singleton.mp hmem
          exact ihu hupper v hv
      | lower hmem hv =>
          obtain rfl := List.mem_singleton.mp hmem
          exact ihl hlower v hv
  | @var w _ =>
      intro v hv
      cases hv with
      | var hwv =>
          rw [subst_var, ← Substitution.get?_of_beq σ hwv]
          cases hget : σ.get? w with
          | none => exact same_refl _
          | some u =>
              rw [subst_var, hget] at h
              exact same_trans (same_var.mpr ⟨w, rfl, BEq.symm hwv⟩) h

end Ty

namespace Substitution

open Ty (Same Occurs InArray)

variable {σ θ θ' : Substitution} {v : TyVar}

/-- All bindings of one substitution are bindings of another. -/
def PartOf (θ σ : Substitution) : Prop := ∀ v t, θ.get? v = some t → σ.get? v = some t

theorem PartOf.trans {ρ : Substitution} (h : θ.PartOf θ') (h' : θ'.PartOf ρ) : θ.PartOf ρ :=
  fun v t hget => h' v t (h v t hget)

/-- A variable is replaced alike by two substitutions. -/
def Settled (σ θ : Substitution) (v : TyVar) : Prop :=
  Same ((Ty.var v).subst θ) ((Ty.var v).subst σ)

theorem settled_of_bound {t : Ty} (h : θ.PartOf σ) (hget : θ.get? v = some t) :
    Settled σ θ v := by
  rw [Settled, Ty.subst_var, Ty.subst_var, hget, h v t hget]
  exact Ty.same_refl _

theorem Settled.mono (hsettled : Settled σ θ v) (h : θ.PartOf θ') (h' : θ'.PartOf σ) :
    Settled σ θ' v := by
  cases hget : θ'.get? v with
  | some t => exact settled_of_bound h' hget
  | none =>
      have hfree : θ.get? v = none := by
        by_contra hne
        obtain ⟨t, ht⟩ := Option.ne_none_iff_exists'.mp hne
        rw [h v t ht] at hget
        cases hget
      rw [Settled, Ty.subst_var, hget]
      rwa [Settled, Ty.subst_var, hfree] at hsettled

/-- The match goes through, keeps what is bound, adds parts of a given
substitution only, and settles some variables. -/
def Recovers (σ θ : Substitution) (settles : TyVar → Prop)
    (result : Except MatchFault Substitution) : Prop :=
  ∃ θ', result = .ok θ' ∧ θ.PartOf θ' ∧ θ'.PartOf σ ∧ ∀ v, settles v → Settled σ θ' v

theorem recovers_same {settles : TyVar → Prop} (hθ : θ.PartOf σ)
    (h : ∀ v, settles v → Same (.var v) ((Ty.var v).subst σ)) :
    Recovers σ θ settles (.ok θ) := by
  refine ⟨θ, rfl, fun _ _ h => h, hθ, ?_⟩
  intro v hv
  cases hget : θ.get? v with
  | some t => exact settled_of_bound hθ hget
  | none =>
      rw [Settled, Ty.subst_var, hget]
      exact h v hv

theorem recovers_none (hθ : θ.PartOf σ) : Recovers σ θ (fun _ => False) (.ok θ) :=
  recovers_same hθ fun _ h => h.elim

theorem Recovers.bind {first second settles : TyVar → Prop}
    {result : Except MatchFault Substitution}
    {next : Substitution → Except MatchFault Substitution}
    (hfirst : Recovers σ θ first result)
    (hsecond : ∀ θ', θ'.PartOf σ → Recovers σ θ' second (next θ'))
    (hsettles : ∀ v, settles v → first v ∨ second v) :
    Recovers σ θ settles (result >>= next) := by
  obtain ⟨θ', rfl, hgrown, hpart, hsettled⟩ := hfirst
  obtain ⟨θ'', hnext, hgrown', hpart', hsettled'⟩ := hsecond θ' hpart
  refine ⟨θ'', hnext, hgrown.trans hgrown', hpart', ?_⟩
  intro v hv
  rcases hsettles v hv with hv | hv
  · exact (hsettled v hv).mono hgrown' hpart'
  · exact hsettled' v hv

/-! ## Matching with an instance -/

theorem unify_of_same {shape actual : Ty} (h : Same shape actual) (θ : Substitution) :
    unify shape actual θ = .ok θ := by
  have heq : (shape == actual) = true := h
  rw [unify.eq_def, if_pos heq]

/-- A variable is bound to what was put in. -/
theorem bind_recovers (hθ : θ.PartOf σ) {t : Ty} (hget : σ.get? v = some t) :
    Recovers σ θ (fun w => (v == w) = true) (θ.bind v t) := by
  have hbound : ∀ {θ' : Substitution} {w : TyVar}, θ'.PartOf σ → θ'.get? v = some t →
      (v == w) = true → Settled σ θ' w := by
    intro θ' w hpart hfound hvw
    rw [get?_of_beq θ' hvw] at hfound
    exact settled_of_bound hpart hfound
  unfold bind
  split
  · rename_i hself
    apply recovers_same hθ
    intro w hvw
    cases t with
    | var x =>
        rw [Ty.subst_var, ← get?_of_beq σ hvw, hget]
        exact Ty.same_var.mpr ⟨x, rfl, BEq.trans (BEq.symm hvw) (BEq.symm hself)⟩
    | _ => cases hself
  · cases hfound : θ.get? v with
    | some existing =>
        obtain rfl := Option.some.inj ((hθ v existing hfound).symm.trans hget)
        have hequal : (existing == existing) = true := Ty.same_refl existing
        simp only [hequal, if_true]
        exact ⟨θ, rfl, fun _ _ h => h, hθ, fun w hvw => hbound hθ hfound hvw⟩
    | none =>
        have hadded : ∀ w, get? ⟨θ.bindings ++ [(v, t)]⟩ w =
            (θ.get? w).or (if v == w then some t else none) := by
          intro w
          rw [get?_append, get?_cons]
          rfl
        have hpart : PartOf ⟨θ.bindings ++ [(v, t)]⟩ σ := by
          intro w u hu
          rw [hadded] at hu
          cases hw : θ.get? w with
          | some u' =>
              rw [hw] at hu
              rw [hθ w u' hw]
              exact hu
          | none =>
              rw [hw, Option.none_or] at hu
              split at hu
              · rename_i hvw
                rw [← get?_of_beq σ hvw, hget]
                exact hu
              · cases hu
        refine ⟨_, rfl, ?_, hpart, ?_⟩
        · intro w u hu
          rw [hadded, hu]
          rfl
        · intro w hvw
          apply hbound hpart _ hvw
          rw [hadded, hfound, BEq.rfl]
          rfl

theorem unifyAll_subst {shapes : List Ty}
    (h : ∀ t ∈ shapes, ∀ θ : Substitution, θ.PartOf σ →
      Recovers σ θ (Occurs · t) (unify t (t.subst σ) θ)) (hθ : θ.PartOf σ) :
    Recovers σ θ (fun v => ∃ t ∈ shapes, Occurs v t)
      (unifyAll shapes (shapes.map (Ty.subst σ)) θ) := by
  induction shapes generalizing θ with
  | nil =>
      apply recovers_same hθ
      rintro v ⟨t, ht, -⟩
      cases ht
  | cons shape shapes ih =>
      apply (h shape List.mem_cons_self θ hθ).bind
      · exact fun θ' hθ' => ih (fun t ht => h t (List.mem_cons_of_mem _ ht)) hθ'
      · rintro v ⟨t, ht, hv⟩
        rcases List.mem_cons.mp ht with rfl | hrest
        · exact Or.inl hv
        · exact Or.inr ⟨t, hrest, hv⟩

theorem unifyAll_singleton {t : Ty}
    (h : ∀ θ : Substitution, θ.PartOf σ → Recovers σ θ (Occurs · t) (unify t (t.subst σ) θ))
    (hθ : θ.PartOf σ) :
    Recovers σ θ (fun v => ∃ s ∈ [t], Occurs v s) (unifyAll [t] [t.subst σ] θ) :=
  unifyAll_subst (List.forall_mem_singleton.mpr h) hθ

theorem unify_param {owner owner' : Option Ty} {raw raw' : ClassRef} {args args' : List Ty}
    (hne : ¬Same (.param owner raw args) (.param owner' raw' args'))
    (hname : raw.name = raw'.name) (hlength : args.length = args'.length) :
    unify (.param owner raw args) (.param owner' raw' args') θ =
      unifyAll args args' θ >>= unifyOwner owner owner' := by
  have hraw : (raw != raw') = false := by simpa [bne] using hname
  rw [unify.eq_def, if_neg hne]
  simp [hraw, hlength]

theorem unify_wild {upper lower upper' lower' : List Ty}
    (hne : ¬Same (.wild upper lower) (.wild upper' lower'))
    (hupper : upper.length = upper'.length) (hlower : lower.length = lower'.length) :
    unify (.wild upper lower) (.wild upper' lower') θ =
      unifyAll upper upper' θ >>= unifyAll lower lower' := by
  rw [unify.eq_def, if_neg hne]
  simp [hupper, hlower]

theorem unify_array_of_not_same {component actual : Ty} (hne : ¬Same (.array component) actual)
    (hwild : actual.isWildcard = false) :
    unify (.array component) actual θ = match actual.component? with
      | some component' => unify component component' θ
      | none => .error (.mismatch (.array component) actual) := by
  rw [unify.eq_def, if_neg hne]
  cases actual with
  | wild _ _ => cases hwild
  | _ => rfl

theorem unify_array {component component' : Ty}
    (hne : ¬Same (.array component) component'.arrayOf)
    (hwild : component'.isWildcard = false) :
    unify (.array component) component'.arrayOf θ = unify component component' θ := by
  rw [unify_array_of_not_same hne ((Ty.isWildcard_arrayOf _).trans hwild),
    Ty.component?_arrayOf hwild]

theorem recovers_of_same {shape : Ty} (hshape : shape.Built)
    (hsame : Same shape (shape.subst σ)) (hθ : θ.PartOf σ) :
    Recovers σ θ (Occurs · shape) (unify shape (shape.subst σ) θ) := by
  rw [unify_of_same hsame]
  exact recovers_same hθ (Ty.same_var_of_same hshape.writable hsame)

/-- The match of a shape with an instance recovers what was put in. -/
theorem unify_subst {shape : Ty} (hshape : shape.Built)
    (harrays : ∀ v, InArray v shape → ((Ty.var v).subst σ).isWildcard = false)
    (hθ : θ.PartOf σ) : Recovers σ θ (Occurs · shape) (unify shape (shape.subst σ) θ) := by
  induction hshape generalizing θ with
  | cls c => exact recovers_of_same (.cls c) (Ty.same_refl _) hθ
  | @param owner raw args howner hargs ihowner ihargs =>
      by_cases hsame : Same (.param owner raw args) ((Ty.param owner raw args).subst σ)
      · exact recovers_of_same (.param howner hargs) hsame hθ
      · have hall := unifyAll_subst
          (fun t ht θ hθ => ihargs t ht (fun v hv => harrays v (.arg ht hv)) hθ) hθ
        rw [Ty.subst_param] at hsame ⊢
        rw [unify_param hsame rfl (List.length_map _).symm]
        cases owner with
        | none =>
            apply hall.bind (fun θ' hθ' => recovers_none hθ')
            intro v hv
            cases hv with
            | arg hmem hv => exact Or.inl ⟨_, hmem, hv⟩
        | some owner =>
            apply hall.bind
              (fun θ' hθ' => ihowner owner rfl (fun v hv => harrays v (.owner hv)) hθ')
            intro v hv
            cases hv with
            | owner hv => exact Or.inr hv
            | arg hmem hv => exact Or.inl ⟨_, hmem, hv⟩
  | @array component hcomponent hwild ih =>
      by_cases hsame : Same (.array component) ((Ty.array component).subst σ)
      · exact recovers_of_same (.array hcomponent hwild) hsame hθ
      · rw [Ty.subst_array] at hsame ⊢
        rw [unify_array hsame (Ty.isWildcard_component hcomponent hwild harrays)]
        obtain ⟨θ', hunify, hgrown, hpart, hsettled⟩ :=
          ih (fun v hv => harrays v (.component hv)) hθ
        refine ⟨θ', hunify, hgrown, hpart, fun v hv => ?_⟩
        cases hv with
        | component hv => exact hsettled v hv
  | @wildUpper upper hupper ih =>
      by_cases hsame : Same (.wild [upper] []) ((Ty.wild [upper] []).subst σ)
      · exact recovers_of_same (.wildUpper hupper) hsame hθ
      · have hall := unifyAll_singleton
          (fun θ hθ => ih (fun v hv => harrays v (.upper List.mem_cons_self hv)) hθ) hθ
        rw [Ty.subst_wildUpper] at hsame ⊢
        rw [unify_wild hsame rfl rfl]
        apply hall.bind (fun θ' hθ' => recovers_none hθ')
        intro v hv
        cases hv with
        | upper hmem hv => exact Or.inl ⟨_, hmem, hv⟩
        | lower hmem _ => cases hmem
  | @wildLower upper lower hupper hlower ihu ihl =>
      by_cases hsame : Same (.wild [upper] [lower]) ((Ty.wild [upper] [lower]).subst σ)
      · exact recovers_of_same (.wildLower hupper hlower) hsame hθ
      · have huppers := unifyAll_singleton
          (fun θ hθ => ihu (fun v hv => harrays v (.upper List.mem_cons_self hv)) hθ) hθ
        have hlowers := fun θ' (hθ' : PartOf θ' σ) => unifyAll_singleton
          (fun θ hθ => ihl (fun v hv => harrays v (.lower List.mem_cons_self hv)) hθ) hθ'
        rw [Ty.subst_wildLower] at hsame ⊢
        rw [unify_wild hsame rfl rfl]
        apply huppers.bind hlowers
        intro v hv
        cases hv with
        | upper hmem hv => exact Or.inl ⟨_, hmem, hv⟩
        | lower hmem hv => exact Or.inr ⟨_, hmem, hv⟩
  | var v =>
      by_cases hsame : Same (.var v) ((Ty.var v).subst σ)
      · exact recovers_of_same (.var v) hsame hθ
      · rw [unify.eq_def, if_neg hsame]
        cases hget : σ.get? v with
        | none =>
            rw [Ty.subst_var, hget] at hsame
            exact absurd (Ty.same_refl _) hsame
        | some t =>
            rw [Ty.subst_var, hget]
            obtain ⟨θ', hbind, hgrown, hpart, hsettled⟩ := bind_recovers hθ hget
            refine ⟨θ', hbind, hgrown, hpart, fun w hw => ?_⟩
            cases hw with
            | var hvw => exact hsettled w hvw

end Substitution

end Generics
