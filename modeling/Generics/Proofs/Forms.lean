import Generics.GenericForm
import Generics.Proofs.Substitution

/-!
Generic forms and their instances. The form of a class that is no array is the
class itself or has the class as its raw class and the parameters as arguments;
instances of a form have its shape, and instances of instances are instances.
-/

namespace Generics

namespace Registry

variable {registry : Registry}

/-- The owner in the form of a class, given the form of the class around it. -/
def ownerForm (registry : Registry) (outerForm : ClassRef → Ty) (c : ClassRef) : Option Ty :=
  (registry.enclosing? c).map fun outer =>
    if registry.isStatic c then .cls outer else outerForm outer

/-- Nothing is generic about a class: it has no parameters, and its owner has none. -/
def isBare (registry : Registry) (outerForm : ClassRef → Ty) (c : ClassRef) : Bool :=
  (registry.parameters c).isEmpty && !(registry.ownerForm outerForm c).any Ty.isParameterized

/-- What is generic about a class is a parameter or the owner of an inner class. -/
theorem generic_cases {outerForm : ClassRef → Ty} {c : ClassRef}
    (h : registry.isBare outerForm c = false) :
    (∃ v vs, registry.parameters c = v :: vs) ∨
      (registry.isStatic c = false ∧ ∃ outer,
        registry.ownerForm outerForm c = some (outerForm outer) ∧
          (outerForm outer).isParameterized = true) := by
  cases hparameters : registry.parameters c with
  | cons v vs => exact Or.inl ⟨v, vs, rfl⟩
  | nil =>
      right
      have howned : (registry.ownerForm outerForm c).any Ty.isParameterized = true := by
        simpa [isBare, hparameters] using h
      rw [ownerForm] at howned ⊢
      cases houter : registry.enclosing? c with
      | none => simp [houter] at howned
      | some outer =>
          cases hstatic : registry.isStatic c with
          | true => simp [houter, hstatic, Ty.isParameterized] at howned
          | false =>
              refine ⟨rfl, outer, by simp, ?_⟩
              simpa [houter, hstatic] using howned

theorem formWithin_of_plain (registry : Registry) (outerForm : ClassRef → Ty) {c : ClassRef}
    (hc : c.isArray = false) : registry.formWithin outerForm c =
      if registry.isBare outerForm c then .cls c
      else .param (registry.ownerForm outerForm c) c ((registry.parameters c).map Ty.var) := by
  cases c with
  | array _ _ => cases hc
  | named name kind =>
      rw [formWithin, isBare, ownerForm]
      generalize (registry.enclosing? (.named name kind)).map _ = owner
      simp only [List.isEmpty_map]

theorem formWithin_raw (registry : Registry) (outerForm : ClassRef → Ty) {c : ClassRef}
    (hc : c.isArray = false) :
    registry.formWithin outerForm c = .cls c ∨
      ∃ owner, registry.formWithin outerForm c =
        .param owner c ((registry.parameters c).map Ty.var) := by
  rw [formWithin_of_plain registry outerForm hc]
  split
  · exact Or.inl rfl
  · exact Or.inr ⟨_, rfl⟩

theorem formWithin_cls {outerForm : ClassRef → Ty} {c d : ClassRef}
    (h : registry.formWithin outerForm c = .cls d) : d = c := by
  cases c with
  | array name component =>
      rw [formWithin] at h
      split at h
      · cases h
        rfl
      · cases h
  | named name kind =>
      rcases formWithin_raw registry outerForm
        (show (ClassRef.named name kind).isArray = false from rfl) with hform | ⟨owner, hform⟩
      · rw [hform] at h
        cases h
        rfl
      · rw [hform] at h
        cases h

/-- The form of an array class follows that of the component. -/
theorem formWithin_array (registry : Registry) (outerForm : ClassRef → Ty) (name : String)
    (component : ClassRef) :
    (registry.formWithin outerForm component = .cls component ∧
      registry.formWithin outerForm (.array name component) = .cls (.array name component)) ∨
      (registry.formWithin outerForm component ≠ .cls component ∧
        registry.formWithin outerForm (.array name component) =
          .array (registry.formWithin outerForm component)) := by
  rw [formWithin]
  split
  · rename_i d hform
    obtain rfl := formWithin_cls hform
    exact Or.inl ⟨hform, rfl⟩
  · rename_i form hform
    exact Or.inr ⟨hform component, rfl⟩

/-- The array over an instance of a generic class is no array class. -/
theorem arrayOf_formWithin (registry : Registry) (outerForm : ClassRef → Ty) (c : ClassRef)
    (σ : Substitution) :
    registry.formWithin outerForm c = .cls c ∨
      ((registry.formWithin outerForm c).subst σ).arrayOf =
        .array ((registry.formWithin outerForm c).subst σ) := by
  induction c with
  | named name kind =>
      rcases formWithin_raw registry outerForm
        (show (ClassRef.named name kind).isArray = false from rfl) with hform | ⟨owner, hform⟩
      · exact Or.inl hform
      · right
        rw [hform, Ty.subst_param]
        rfl
  | array name component ih =>
      rcases formWithin_array registry outerForm name component with ⟨-, hform⟩ | ⟨hne, hform⟩
      · exact Or.inl hform
      · right
        rw [hform, Ty.subst_array, ih.resolve_left hne]
        rfl

theorem isWildcard_formWithin (outerForm : ClassRef → Ty) (c : ClassRef) :
    (registry.formWithin outerForm c).isWildcard = false := by
  cases c with
  | named name kind =>
      rcases formWithin_raw registry outerForm
        (show (ClassRef.named name kind).isArray = false from rfl) with h | ⟨owner, h⟩
      · rw [h]
        rfl
      · rw [h]
        rfl
  | array name component =>
      rcases formWithin_array registry outerForm name component with ⟨-, h⟩ | ⟨-, h⟩
      · rw [h]
        rfl
      · rw [h]
        rfl

theorem built_formWithin {outerForm : ClassRef → Ty}
    (houter : ∀ c, (outerForm c).Built) (c : ClassRef) :
    (registry.formWithin outerForm c).Built := by
  induction c with
  | array name component ih =>
      rcases formWithin_array registry outerForm name component with ⟨-, h⟩ | ⟨-, h⟩
      · rw [h]
        exact .cls _
      · rw [h]
        exact .array ih (isWildcard_formWithin outerForm component)
  | named name kind =>
      rw [formWithin_of_plain registry outerForm rfl]
      split
      · exact .cls _
      · refine .param ?_ ?_
        · intro owner howner
          obtain ⟨outer, -, rfl⟩ := Option.map_eq_some_iff.mp howner
          split
          · exact .cls _
          · exact houter outer
        · intro t ht
          obtain ⟨v, -, rfl⟩ := List.mem_map.mp ht
          exact .var v

theorem built_genericForm (c : ClassRef) : (registry.genericForm c).Built := by
  unfold genericForm
  induction registry.size + 1 generalizing c with
  | zero => exact .cls c
  | succ hops ih => exact built_formWithin ih c

theorem writable_genericForm (c : ClassRef) : (registry.genericForm c).Writable :=
  (built_genericForm c).writable

theorem formSteps_subst_empty (hops : Nat) (c : ClassRef) :
    (registry.formSteps hops c).subst .empty = registry.formSteps hops c := by
  induction hops generalizing c with
  | zero => rfl
  | succ hops ih =>
      simp only [formSteps]
      induction c with
      | array name component ihComponent =>
          have harray := arrayOf_formWithin registry (registry.formSteps hops) component .empty
          rcases formWithin_array registry (registry.formSteps hops) name component
            with ⟨-, hform⟩ | ⟨hne, hform⟩
          · rw [hform]
            rfl
          · rw [hform, Ty.subst_array, harray.resolve_left hne, ihComponent]
      | named name kind =>
          rw [formWithin_of_plain registry _ rfl]
          split
          · rfl
          · rw [Ty.subst_param]
            congr 1
            · rw [ownerForm, Option.map_map]
              congr 1
              funext outer
              simp only [Function.comp_apply]
              split
              · rfl
              · exact ih outer
            · rw [List.map_map]
              rfl

end Registry

/-! ## Instances -/

namespace Substitution

/-- What is put in can be written. -/
def Writable (σ : Substitution) : Prop := ∀ v t, σ.get? v = some t → t.Writable

/-- First one substitution, then another. -/
def andThen (σ τ : Substitution) : Substitution :=
  ⟨σ.bindings.map (fun binding => (binding.1, binding.2.subst τ)) ++ τ.bindings⟩

theorem get?_map (σ : Substitution) (f : Ty → Ty) (v : TyVar) :
    get? ⟨σ.bindings.map fun binding => (binding.1, f binding.2)⟩ v = (σ.get? v).map f := by
  simp only [get?, List.find?_map, Option.map_map]
  rfl

theorem get?_andThen (σ τ : Substitution) (v : TyVar) :
    (σ.andThen τ).get? v = ((σ.get? v).map (Ty.subst τ)).or (τ.get? v) := by
  rw [andThen, get?_append, get?_map]

theorem Writable.image {σ : Substitution} (h : σ.Writable) (v : TyVar) :
    ((Ty.var v).subst σ).Writable := by
  rw [Ty.subst_var]
  cases hget : σ.get? v with
  | none => exact .var trivial
  | some t => exact h v t hget

theorem Writable.andThen {σ τ : Substitution} (hσ : σ.Writable) (hτ : τ.Writable) :
    (σ.andThen τ).Writable := by
  intro v t h
  rw [get?_andThen] at h
  cases hget : σ.get? v with
  | none =>
      rw [hget] at h
      exact hτ v t (by simpa using h)
  | some u =>
      rw [hget] at h
      obtain rfl : u.subst τ = t := by simpa using h
      exact Ty.writable_subst (hσ v u hget) fun v _ => hτ.image v

theorem subst_andThen {σ : Substitution} (hσ : σ.Writable) (τ : Substitution) {t : Ty}
    (ht : t.Writable) : (t.subst σ).subst τ = t.subst (σ.andThen τ) := by
  apply Ty.subst_subst ht (fun v _ => hσ.image v)
  intro v _
  rw [Ty.subst_var, Ty.subst_var, get?_andThen]
  cases hget : σ.get? v with
  | none => simp [Ty.subst_var]
  | some t => simp

end Substitution

/-- A form with its parameters replaced by types. -/
def Registry.IsInstance (registry : Registry) (c : ClassRef) (t : Ty) : Prop :=
  ∃ σ : Substitution, σ.Writable ∧ t = (registry.genericForm c).subst σ

namespace Registry

variable {registry : Registry} {c : ClassRef} {t : Ty}

theorem IsInstance.subst (h : registry.IsInstance c t) {τ : Substitution} (hτ : τ.Writable) :
    registry.IsInstance c (t.subst τ) := by
  obtain ⟨σ, hσ, rfl⟩ := h
  exact ⟨σ.andThen τ, hσ.andThen hτ,
    Substitution.subst_andThen hσ τ (writable_genericForm c)⟩

theorem isInstance_genericForm (c : ClassRef) :
    registry.IsInstance c (registry.genericForm c) := by
  refine ⟨.empty, ?_, (formSteps_subst_empty _ c).symm⟩
  intro v t h
  cases h

/-- A class with nothing generic about it is the only instance of its form. -/
theorem isInstance_cls (h : registry.genericForm c = .cls c) : registry.IsInstance c t ↔ t = .cls c := by
  constructor
  · rintro ⟨σ, -, rfl⟩
    rw [h]
    rfl
  · rintro rfl
    exact ⟨.empty, fun _ _ h => by simp at h, by rw [h]; rfl⟩

/-- An instance has the raw class of the form. -/
theorem IsInstance.cases (h : registry.IsInstance c t) (hc : c.isArray = false) :
    (registry.genericForm c = .cls c ∧ t = .cls c) ∨
      ∃ owner args, t = .param owner c args ∧ registry.genericForm c ≠ .cls c := by
  obtain ⟨σ, -, rfl⟩ := h
  rcases formWithin_raw registry (registry.formSteps registry.size) hc with hform | ⟨owner, hform⟩
  · have hcls : registry.genericForm c = .cls c := hform
    rw [hcls]
    exact Or.inl ⟨rfl, rfl⟩
  · have hparam : registry.genericForm c =
        .param owner c ((registry.parameters c).map Ty.var) := hform
    rw [hparam, Ty.subst_param]
    exact Or.inr ⟨_, _, rfl, by simp⟩

end Registry

end Generics
