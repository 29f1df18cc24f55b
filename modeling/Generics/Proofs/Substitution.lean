import Generics.Proofs.Equality
import Generics.Substitution.Basic

/-!
Laws of substitution. A look-up depends on a variable only up to equality,
and the first binding of a variable counts. Substituting depends only on the
variables that a type spells out, respects equality of what is put in, keeps
types written, and two substitutions in a row are one.
-/

namespace Generics

namespace Substitution

theorem get?_of_beq (σ : Substitution) {v w : TyVar} (h : (v == w) = true) :
    σ.get? v = σ.get? w := by
  have heq : (fun binding : TyVar × Ty => binding.1 == v) =
      fun binding => binding.1 == w := by
    funext binding
    apply Bool.eq_iff_iff.mpr
    constructor
    · intro hv
      exact BEq.trans hv h
    · intro hw
      exact BEq.trans hw (BEq.symm h)
  simp only [get?, heq]

theorem get?_cons (v : TyVar) (t : Ty) (pairs : List (TyVar × Ty)) (w : TyVar) :
    get? ⟨(v, t) :: pairs⟩ w = if v == w then some t else get? ⟨pairs⟩ w := by
  simp only [get?, List.find?_cons]
  cases v == w <;> rfl

theorem get?_append (first second : List (TyVar × Ty)) (w : TyVar) :
    get? ⟨first ++ second⟩ w = (get? ⟨first⟩ w).or (get? ⟨second⟩ w) := by
  simp [get?, List.find?_append, Option.map_or]

theorem get?_insertIfNew_or (σ : Substitution) (v : TyVar) (t : Ty) (w : TyVar) :
    (σ.insertIfNew v t).get? w = (σ.get? w).or (if v == w then some t else none) := by
  cases hv : σ.get? v with
  | none =>
      rw [get?_insertIfNew t hv]
      split
      · rename_i hw
        rw [← get?_of_beq σ hw, hv]
        rfl
      · simp
  | some s =>
      rw [insertIfNew_of_mapped t hv]
      split
      · rename_i hw
        rw [← get?_of_beq σ hw, hv]
        rfl
      · simp

/-- Inserting several bindings adds them behind those already there. -/
theorem get?_insertAllNew (σ : Substitution) (pairs : List (TyVar × Ty)) (w : TyVar) :
    (σ.insertAllNew pairs).get? w = (σ.get? w).or (get? ⟨pairs⟩ w) := by
  induction pairs generalizing σ with
  | nil => simp [insertAllNew, get?]
  | cons pair pairs ih =>
      obtain ⟨v, t⟩ := pair
      change ((σ.insertIfNew v t).insertAllNew pairs).get? w = _
      rw [ih, get?_insertIfNew_or, get?_cons, Option.or_assoc]
      congr 1
      split <;> rfl

/-- A look-up finds one of the bindings. -/
theorem mem_of_get? {pairs : List (TyVar × Ty)} {v : TyVar} {t : Ty}
    (h : get? ⟨pairs⟩ v = some t) : ∃ w, (w, t) ∈ pairs ∧ (w == v) = true := by
  obtain ⟨⟨w, t'⟩, hfind, rfl⟩ := Option.map_eq_some_iff.mp h
  exact ⟨w, List.mem_of_find?_eq_some hfind, by simpa using List.find?_some hfind⟩

/-- A variable that is bound is looked up. -/
theorem exists_get? {pairs : List (TyVar × Ty)} {v w : TyVar} {t : Ty} (hmem : (w, t) ∈ pairs)
    (hwv : (w == v) = true) : ∃ u, get? ⟨pairs⟩ v = some u := by
  have hsome : (pairs.find? fun binding => binding.1 == v).isSome = true :=
    List.find?_isSome.mpr ⟨(w, t), hmem, hwv⟩
  obtain ⟨binding, hfind⟩ := Option.isSome_iff_exists.mp hsome
  exact ⟨binding.2, by rw [get?, hfind]; rfl⟩

/-- Bindings of the same variables to related types are looked up alike. -/
theorem get?_related {R : Ty → Ty → Prop} {pairs pairs' : List (TyVar × Ty)}
    (h : List.Forall₂ (fun p q => p.1 = q.1 ∧ R p.2 q.2) pairs pairs') (w : TyVar) :
    Option.Rel R (get? ⟨pairs⟩ w) (get? ⟨pairs'⟩ w) := by
  induction h with
  | nil => exact .none
  | @cons p q _ _ hpq _ ih =>
      obtain ⟨v, t⟩ := p
      obtain ⟨v', t'⟩ := q
      obtain ⟨rfl, ht⟩ := hpq
      simp only [get?_cons]
      split
      · exact .some ht
      · exact ih

end Substitution

namespace Ty

variable {σ τ ρ : Substitution}

@[simp] theorem subst_cls (c : ClassRef) : (cls c).subst σ = cls c := rfl

@[simp] theorem subst_param (owner : Option Ty) (raw : ClassRef) (args : List Ty) :
    (param owner raw args).subst σ =
      param (owner.map (subst σ)) raw (args.map (subst σ)) := by
  simp [subst]

@[simp] theorem subst_array (component : Ty) :
    (array component).subst σ = arrayOf (component.subst σ) := rfl

theorem subst_wildUpper (upper : Ty) :
    (wild [upper] []).subst σ = wild [upper.subst σ] [] := rfl

theorem subst_wildLower (upper lower : Ty) :
    (wild [upper] [lower]).subst σ = wild [upper.subst σ] [lower.subst σ] := rfl

theorem subst_var (v : TyVar) : (var v).subst σ = (σ.get? v).getD (var v) := rfl

/-- Equal variables are replaced alike. -/
theorem same_image_of_beq (σ : Substitution) {v w : TyVar} (h : (v == w) = true) :
    Same ((var v).subst σ) ((var w).subst σ) := by
  rw [subst_var, subst_var, Substitution.get?_of_beq σ h]
  cases σ.get? w with
  | none => exact same_var.mpr ⟨w, rfl, h⟩
  | some u => exact same_refl u

/-! ## Occurrence -/

/-- A variable equal to a given one is spelled out in a type. -/
inductive Occurs (v : TyVar) : Ty → Prop where
  | owner {owner raw args} (h : Occurs v owner) : Occurs v (param (some owner) raw args)
  | arg {owner raw args t} (hmem : t ∈ args) (h : Occurs v t) :
      Occurs v (param owner raw args)
  | component {component} (h : Occurs v component) : Occurs v (array component)
  | upper {upper lower t} (hmem : t ∈ upper) (h : Occurs v t) : Occurs v (wild upper lower)
  | lower {upper lower t} (hmem : t ∈ lower) (h : Occurs v t) : Occurs v (wild upper lower)
  | var {w} (h : (w == v) = true) : Occurs v (var w)

theorem occurs_self (v : TyVar) : Occurs v (var v) := .var BEq.rfl

/-- What occurs in a written type is a variable that it is written with. -/
theorem isVar_of_occurs {isClass : ClassRef → Prop} {isVar : TyVar → Prop} {v : TyVar} {t : Ty}
    (hv : Occurs v t) (ht : t.Written isClass isVar) : ∃ w, isVar w ∧ (w == v) = true := by
  induction hv with
  | owner _ ih =>
      cases ht with
      | param howner _ _ => exact ih (howner _ rfl)
  | arg hmem _ ih =>
      cases ht with
      | param _ _ hargs => exact ih (hargs _ hmem)
  | component _ ih =>
      cases ht with
      | array h => exact ih h
  | upper hmem _ ih =>
      cases ht with
      | wildUpper hupper =>
          obtain rfl := List.mem_singleton.mp hmem
          exact ih hupper
      | wildLower hupper _ =>
          obtain rfl := List.mem_singleton.mp hmem
          exact ih hupper
  | lower hmem _ ih =>
      cases ht with
      | wildUpper _ => cases hmem
      | wildLower _ hlower =>
          obtain rfl := List.mem_singleton.mp hmem
          exact ih hlower
  | var hw =>
      cases ht with
      | var h => exact ⟨_, h, hw⟩

/-! ## Substituting in written types -/

section

variable {isClass : ClassRef → Prop} {isVar isVar' : TyVar → Prop}

/-- A written type stays written when its variables are replaced by written types. -/
theorem written_subst (harray : ∀ c, isClass c → isClass (.arrayOf c)) {t : Ty}
    (ht : t.Written isClass isVar')
    (himage : ∀ v, isVar' v → Occurs v t → ((var v).subst σ).Written isClass isVar) :
    (t.subst σ).Written isClass isVar := by
  induction ht with
  | cls hc => exact .cls hc
  | @param owner raw args _ hraw _ howner hargs =>
      rw [subst_param]
      refine .param ?_ hraw ?_
      · intro t ht
        obtain ⟨o, rfl, rfl⟩ := Option.map_eq_some_iff.mp ht
        exact howner o rfl fun v hv hoccurs => himage v hv (.owner hoccurs)
      · intro t ht
        obtain ⟨a, ha, rfl⟩ := List.mem_map.mp ht
        exact hargs a ha fun v hv hoccurs => himage v hv (.arg ha hoccurs)
  | array _ ih =>
      exact written_arrayOf harray
        (ih fun v hv hoccurs => himage v hv (.component hoccurs))
  | wildUpper _ ih =>
      exact .wildUpper (ih fun v hv hoccurs => himage v hv (.upper (by simp) hoccurs))
  | wildLower _ _ ihu ihl =>
      exact .wildLower
        (ihu fun v hv hoccurs => himage v hv (.upper (by simp) hoccurs))
        (ihl fun v hv hoccurs => himage v hv (.lower (by simp) hoccurs))
  | @var v hv => exact himage v hv (occurs_self v)

end

theorem writable_subst {t : Ty} (ht : t.Writable)
    (himage : ∀ v, Occurs v t → ((var v).subst σ).Writable) : (t.subst σ).Writable :=
  written_subst (fun _ _ => trivial) ht fun v _ hoccurs => himage v hoccurs

theorem built_subst {t : Ty} (h : t.Built) (himage : ∀ v, Occurs v t → ((var v).subst σ).Built) :
    (t.subst σ).Built := by
  induction h with
  | cls c => exact .cls c
  | @param owner raw args _ _ howner hargs =>
      rw [subst_param]
      refine .param ?_ ?_
      · intro t ht
        obtain ⟨o, rfl, rfl⟩ := Option.map_eq_some_iff.mp ht
        exact howner o rfl fun v hv => himage v (.owner hv)
      · intro t ht
        obtain ⟨a, ha, rfl⟩ := List.mem_map.mp ht
        exact hargs a ha fun v hv => himage v (.arg ha hv)
  | array _ _ ih => exact built_arrayOf (ih fun v hv => himage v (.component hv))
  | wildUpper _ ih => exact .wildUpper (ih fun v hv => himage v (.upper (by simp) hv))
  | wildLower _ _ ihu ihl =>
      exact .wildLower (ihu fun v hv => himage v (.upper (by simp) hv))
        (ihl fun v hv => himage v (.lower (by simp) hv))
  | var v => exact himage v (occurs_self v)

/-- Putting equal types in gives equal types. -/
theorem same_subst {t : Ty} (ht : t.Writable)
    (himage : ∀ v, Occurs v t → ((var v).subst σ).Writable)
    (h : ∀ v, Occurs v t → Same ((var v).subst σ) ((var v).subst τ)) :
    Same (t.subst σ) (t.subst τ) := by
  induction ht with
  | cls _ => exact same_refl _
  | @param owner raw args _ _ _ howner hargs =>
      rw [subst_param, subst_param]
      refine same_param.mpr ⟨_, _, _, rfl, rfl, ?_, ?_⟩
      · cases owner with
        | none => exact .none
        | some o =>
            exact .some (howner o rfl (fun v hv => himage v (.owner hv))
              fun v hv => h v (.owner hv))
      · rw [List.forall₂_map_left_iff, List.forall₂_map_right_iff, List.forall₂_same]
        intro a ha
        exact hargs a ha (fun v hv => himage v (.arg ha hv)) fun v hv => h v (.arg ha hv)
  | array hc ih =>
      apply same_arrayOf
      · exact writable_subst hc fun v hv => himage v (.component hv)
      · exact ih (fun v hv => himage v (.component hv)) fun v hv => h v (.component hv)
  | wildUpper _ ih =>
      refine same_wildUpper.mpr ⟨_, rfl, ?_⟩
      exact ih (fun v hv => himage v (.upper (by simp) hv))
        fun v hv => h v (.upper (by simp) hv)
  | wildLower _ _ ihu ihl =>
      refine same_wildLower.mpr ⟨_, _, rfl, ?_, ?_⟩
      · exact ihu (fun v hv => himage v (.upper (by simp) hv))
          fun v hv => h v (.upper (by simp) hv)
      · exact ihl (fun v hv => himage v (.lower (by simp) hv))
          fun v hv => h v (.lower (by simp) hv)
  | @var v _ => exact h v (occurs_self v)

/-- Equal types stay equal when the same types are put in. -/
theorem same_subst_left {s t : Ty} (hs : s.Writable)
    (himage : ∀ v, Occurs v s → ((var v).subst σ).Writable) (h : Same s t) :
    Same (s.subst σ) (t.subst σ) := by
  induction hs generalizing t with
  | cls _ =>
      obtain ⟨d, rfl, hname⟩ := same_cls.mp h
      exact same_cls.mpr ⟨d, rfl, hname⟩
  | @param owner raw args _ _ _ howner hargs =>
      obtain ⟨owner', raw', args', rfl, hname, howners, hall⟩ := same_param.mp h
      rw [subst_param, subst_param]
      refine same_param.mpr ⟨_, _, _, rfl, hname, ?_, ?_⟩
      · cases howners with
        | none => exact .none
        | some hsame => exact .some (howner _ rfl (fun v hv => himage v (.owner hv)) hsame)
      · rw [List.forall₂_map_left_iff, List.forall₂_map_right_iff]
        refine List.forall₂_iff_zip.mpr ⟨hall.length_eq, fun {a b} hab => ?_⟩
        have ha := (List.of_mem_zip hab).1
        exact hargs a ha (fun v hv => himage v (.arg ha hv)) (List.forall₂_zip hall hab)
  | array hc ih =>
      obtain ⟨component', rfl, hsame⟩ := same_array.mp h
      apply same_arrayOf
      · exact writable_subst hc fun v hv => himage v (.component hv)
      · exact ih (fun v hv => himage v (.component hv)) hsame
  | wildUpper _ ih =>
      obtain ⟨upper', rfl, hsame⟩ := same_wildUpper.mp h
      exact same_wildUpper.mpr ⟨_, rfl, ih (fun v hv => himage v (.upper (by simp) hv)) hsame⟩
  | wildLower _ _ ihu ihl =>
      obtain ⟨upper', lower', rfl, hupper, hlower⟩ := same_wildLower.mp h
      refine same_wildLower.mpr ⟨_, _, rfl, ?_, ?_⟩
      · exact ihu (fun v hv => himage v (.upper (by simp) hv)) hupper
      · exact ihl (fun v hv => himage v (.lower (by simp) hv)) hlower
  | @var v _ =>
      obtain ⟨w, rfl, hvw⟩ := same_var.mp h
      rw [subst_var, subst_var, Substitution.get?_of_beq σ hvw]
      cases σ.get? w with
      | none => exact h
      | some u => exact same_refl u

/-- An array is built before or after its component is replaced. -/
theorem arrayOf_subst {t : Ty} (ht : t.Writable) :
    t.arrayOf.subst σ = (t.subst σ).arrayOf := by
  induction ht with
  | cls _ => rfl
  | param _ _ _ => rfl
  | array _ => rfl
  | wildUpper _ ih =>
      rw [arrayOf_wildUpper, subst_wildUpper, subst_wildUpper, arrayOf_wildUpper, ih]
  | wildLower _ _ ihu ihl =>
      rw [arrayOf_wildLower, subst_wildLower, subst_wildLower, arrayOf_wildLower, ihu, ihl]
  | var _ => rfl

/-- Two substitutions in a row are the one that does both to each variable. -/
theorem subst_subst {t : Ty} (ht : t.Writable)
    (himage : ∀ v, Occurs v t → ((var v).subst σ).Writable)
    (h : ∀ v, Occurs v t → ((var v).subst σ).subst τ = (var v).subst ρ) :
    (t.subst σ).subst τ = t.subst ρ := by
  induction ht with
  | cls _ => rfl
  | @param owner raw args _ _ _ howner hargs =>
      simp only [subst_param, Option.map_map, List.map_map]
      congr 1
      · cases owner with
        | none => rfl
        | some o =>
            simp only [Option.map_some, Function.comp_apply]
            rw [howner o rfl (fun v hv => himage v (.owner hv)) fun v hv => h v (.owner hv)]
      · apply List.map_congr_left
        intro a ha
        exact hargs a ha (fun v hv => himage v (.arg ha hv)) fun v hv => h v (.arg ha hv)
  | array hc ih =>
      rw [subst_array, subst_array, arrayOf_subst,
        ih (fun v hv => himage v (.component hv)) fun v hv => h v (.component hv)]
      exact writable_subst hc fun v hv => himage v (.component hv)
  | wildUpper _ ih =>
      rw [subst_wildUpper, subst_wildUpper, subst_wildUpper,
        ih (fun v hv => himage v (.upper (by simp) hv))
          fun v hv => h v (.upper (by simp) hv)]
  | wildLower _ _ ihu ihl =>
      rw [subst_wildLower, subst_wildLower, subst_wildLower,
        ihu (fun v hv => himage v (.upper (by simp) hv))
          fun v hv => h v (.upper (by simp) hv),
        ihl (fun v hv => himage v (.lower (by simp) hv))
          fun v hv => h v (.lower (by simp) hv)]
  | @var v _ => exact h v (occurs_self v)

end Ty

end Generics
