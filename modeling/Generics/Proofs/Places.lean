import Generics.Proofs.Forms
import Generics.Proofs.Matching

/-!
What stands where in a type. The factory takes no primitive as an argument, and
neither a primitive nor a wildcard as a bound; substitution builds types without
these checks, and keeps them as far as what is put in fits.
-/

namespace Generics

namespace Ty

/-- The places in which a type has parts. -/
inductive Place where
  | owner
  | argument
  | component
  | bound

/-- What the factory admits in a place. -/
def Place.Admits : Place → Ty → Prop
  | .argument, t => t.isPrimitive = false
  | .bound, t => t.isPrimitive = false ∧ t.isWildcard = false
  | _, _ => True

/-- Places that a match does not enter with a variable, unless it is an argument or a bound. -/
def Place.Solid : Place → Ty → Prop
  | .owner, t => t.form ≠ .var
  | .component, t => t.form ≠ .var ∧ t.form ≠ .wild
  | _, _ => True

/-- No primitive is in a place where none is refused. -/
def Place.Reference : Place → Ty → Prop
  | .owner, t => t.isPrimitive = false
  | .component, t => t.isPrimitive = false
  | _, _ => True

/-- At every depth the parts of a type fit their places. -/
inductive Placed (fits : Place → Ty → Prop) : Ty → Prop where
  | cls {c : ClassRef} (h : ∀ d ∈ c.component?, Placed fits (cls d))
      (hfits : ∀ d ∈ c.component?, fits .component (cls d)) : Placed fits (cls c)
  | param {owner raw args} (howner : ∀ t ∈ owner, Placed fits t)
      (hargs : ∀ t ∈ args, Placed fits t) (hownerFits : ∀ t ∈ owner, fits .owner t)
      (hargsFit : ∀ t ∈ args, fits .argument t) : Placed fits (param owner raw args)
  | array {component} (h : Placed fits component) (hfits : fits .component component) :
      Placed fits (array component)
  | wild {upper lower} (hupper : ∀ t ∈ upper, Placed fits t) (hlower : ∀ t ∈ lower, Placed fits t)
      (hupperFit : ∀ t ∈ upper, fits .bound t) (hlowerFit : ∀ t ∈ lower, fits .bound t) :
      Placed fits (wild upper lower)
  | var (v : TyVar) : Placed fits (var v)

/-- A type that the factory could have built. -/
abbrev Valid (t : Ty) : Prop := t.Placed Place.Admits

variable {fits fits' : Place → Ty → Prop} {σ : Substitution} {s t : Ty}

theorem placed_object : Ty.object.Placed fits := .cls (by nofun) (by nofun)

theorem placed_cls (hcomponent : ∀ d, fits .component (.cls d)) (c : ClassRef) :
    (Ty.cls c).Placed fits := by
  induction c with
  | named _ _ => exact .cls (by nofun) (by nofun)
  | array _ component ih =>
      refine .cls ?_ fun d _ => hcomponent d
      rintro d ⟨⟩
      exact ih

theorem valid_cls (c : ClassRef) : (Ty.cls c).Valid := placed_cls (fun _ => trivial) c

theorem Placed.upper {bound : Ty} (h : bound.Placed fits) (hfits : fits .bound bound) :
    (Ty.wild [bound] []).Placed fits :=
  .wild (List.forall_mem_singleton.mpr h) nofun (List.forall_mem_singleton.mpr hfits) nofun

theorem Placed.lower {upper lower : Ty} (hupper : upper.Placed fits) (hlower : lower.Placed fits)
    (hupperFits : fits .bound upper) (hlowerFits : fits .bound lower) :
    (Ty.wild [upper] [lower]).Placed fits :=
  .wild (List.forall_mem_singleton.mpr hupper) (List.forall_mem_singleton.mpr hlower)
    (List.forall_mem_singleton.mpr hupperFits) (List.forall_mem_singleton.mpr hlowerFits)

/-- The component of an array is placed as the array is, and fits. -/
theorem Placed.component (h : t.Placed fits) (hs : t.component? = some s) :
    s.Placed fits ∧ fits .component s := by
  cases h with
  | cls h hfits =>
      obtain ⟨d, hd, rfl⟩ := Option.map_eq_some_iff.mp hs
      exact ⟨h d hd, hfits d hd⟩
  | array h hfits =>
      cases hs
      exact ⟨h, hfits⟩
  | _ => cases hs

/-! ## Building -/

theorem mem_of_mem_eraseDups {ts : List Ty} (h : t ∈ ts.eraseDups) : t ∈ ts := by
  cases ts with
  | nil => exact h
  | cons s rest =>
      have hshorter : (rest.filter fun u => !u == s).length < (s :: rest).length :=
        Nat.lt_succ_of_le (List.length_filter_le _ _)
      rw [List.eraseDups_cons, List.mem_cons] at h
      rcases h with rfl | h
      · exact List.mem_cons_self
      · exact List.mem_cons_of_mem _ (List.mem_of_mem_filter (mem_of_mem_eraseDups h))
termination_by ts.length

/-- A wildcard has the bounds that it is given, or the root class. -/
theorem wildcard_bounds (upper lower : List Ty) : ∃ upper' lower',
    wildcard upper lower = .wild upper' lower' ∧ (∀ b ∈ upper', b ∈ upper ∨ b = .object) ∧
      ∀ b ∈ lower', b ∈ lower := by
  refine ⟨_, _, rfl, fun b hb => ?_, fun b => mem_of_mem_eraseDups⟩
  split at hb
  · exact Or.inr (List.mem_singleton.mp hb)
  · exact Or.inl (mem_of_mem_eraseDups hb)

theorem placed_wildcard {upper lower : List Ty} (hobject : fits .bound .object)
    (hupper : ∀ t ∈ upper, t.Placed fits ∧ fits .bound t)
    (hlower : ∀ t ∈ lower, t.Placed fits ∧ fits .bound t) :
    (wildcard upper lower).Placed fits := by
  obtain ⟨upper', lower', heq, hupper', hlower'⟩ := wildcard_bounds upper lower
  have hall : ∀ b ∈ upper', b.Placed fits ∧ fits .bound b := by
    intro b hb
    rcases hupper' b hb with hb | rfl
    · exact hupper b hb
    · exact ⟨placed_object, hobject⟩
  rw [heq]
  exact .wild (fun b hb => (hall b hb).1) (fun b hb => (hlower b (hlower' b hb)).1)
    (fun b hb => (hall b hb).2) fun b hb => (hlower b (hlower' b hb)).2

theorem isPrimitive_arrayOf (t : Ty) : t.arrayOf.isPrimitive = false := by
  cases t <;> rfl

/-- The array over a valid type is valid. -/
theorem valid_arrayOf (h : t.Valid) : t.arrayOf.Valid := by
  induction h with
  | @cls c _ _ _ => exact valid_cls (.arrayOf c)
  | param howner hargs hownerFits hargsFit _ _ =>
      exact .array (.param howner hargs hownerFits hargsFit) trivial
  | array h _ _ => exact .array (.array h trivial) trivial
  | @wild upper lower _ _ hupperFit hlowerFit ihupper ihlower =>
      have hbounds : ∀ bounds : List Ty, (∀ b ∈ bounds, b.arrayOf.Valid) →
          (∀ b ∈ bounds, Place.bound.Admits b) →
          ∀ b ∈ bounds.map arrayOf, b.Valid ∧ Place.bound.Admits b := by
        intro bounds hvalid hfit b hb
        obtain ⟨a, ha, rfl⟩ := List.mem_map.mp hb
        exact ⟨hvalid a ha, isPrimitive_arrayOf a, (isWildcard_arrayOf a).trans (hfit a ha).2⟩
      rw [arrayOf, arraysOf_eq_map, arraysOf_eq_map]
      exact placed_wildcard ⟨rfl, rfl⟩ (hbounds upper ihupper hupperFit)
        (hbounds lower ihlower hlowerFit)
  | var v => exact .array (.var v) trivial

/-- A type whose variables are replaced has its parts replaced. -/
theorem placed_subst (hfits : ∀ place s, s.Placed fits → fits place s → fits' place (s.subst σ))
    (harray : ∀ s, s.Placed fits → fits .component s → (s.subst σ).Placed fits' →
      (s.subst σ).arrayOf.Placed fits')
    (hobject : fits' .bound .object) (himage : ∀ v, ((var v).subst σ).Placed fits')
    (ht : t.Placed fits) : (t.subst σ).Placed fits' := by
  induction ht with
  | cls h hfit ih => exact .cls ih fun d hd => hfits .component (.cls d) (h d hd) (hfit d hd)
  | @param owner raw args howner hargs hownerFits hargsFit ihowner ihargs =>
      rw [subst_param]
      refine .param ?_ ?_ ?_ ?_
      · intro s hs
        obtain ⟨o, ho, rfl⟩ := Option.map_eq_some_iff.mp hs
        exact ihowner o ho
      · intro s hs
        obtain ⟨a, ha, rfl⟩ := List.mem_map.mp hs
        exact ihargs a ha
      · intro s hs
        obtain ⟨o, ho, rfl⟩ := Option.map_eq_some_iff.mp hs
        exact hfits .owner o (howner o ho) (hownerFits o ho)
      · intro s hs
        obtain ⟨a, ha, rfl⟩ := List.mem_map.mp hs
        exact hfits .argument a (hargs a ha) (hargsFit a ha)
  | array h hfit ih => exact harray _ h hfit ih
  | @wild upper lower hupper hlower hupperFit hlowerFit ihupper ihlower =>
      have hbounds : ∀ bounds : List Ty, (∀ b ∈ bounds, b.Placed fits) →
          (∀ b ∈ bounds, fits .bound b) → (∀ b ∈ bounds, (b.subst σ).Placed fits') →
          ∀ b ∈ bounds.map (subst σ), b.Placed fits' ∧ fits' .bound b := by
        intro bounds hplaced hfit hplaced' b hb
        obtain ⟨a, ha, rfl⟩ := List.mem_map.mp hb
        exact ⟨hplaced' a ha, hfits .bound a (hplaced a ha) (hfit a ha)⟩
      rw [subst, substList_eq_map, substList_eq_map]
      exact placed_wildcard hobject (hbounds upper hupper hupperFit ihupper)
        (hbounds lower hlower hlowerFit ihlower)
  | var v => exact himage v

/-- No primitive comes from a type that is none, if none is put in. -/
theorem isPrimitive_subst (himage : ∀ v, ((var v).subst σ).isPrimitive = false)
    (h : t.isPrimitive = false) : (t.subst σ).isPrimitive = false := by
  cases t with
  | cls _ => exact h
  | param _ _ _ => rfl
  | array component => exact isPrimitive_arrayOf (component.subst σ)
  | wild _ _ => rfl
  | var v => exact himage v

/-- A valid type stays valid, if what is put in is valid and not primitive, and
no bound turns into a wildcard. -/
theorem valid_subst (himage : ∀ v, ((var v).subst σ).Valid)
    (hprimitive : ∀ v, ((var v).subst σ).isPrimitive = false)
    (ht : t.Placed fun place s => place.Admits s ∧ (place = .bound → (s.subst σ).isWildcard = false)) :
    (t.subst σ).Valid := by
  refine placed_subst ?_ (fun _ _ _ h => valid_arrayOf h) ⟨rfl, rfl⟩ himage ht
  rintro place s - ⟨hadmits, hbound⟩
  cases place with
  | argument => exact isPrimitive_subst hprimitive hadmits
  | bound => exact ⟨isPrimitive_subst hprimitive hadmits.1, hbound rfl⟩
  | _ => trivial

theorem Placed.and (h : t.Placed fits) (h' : t.Placed fits') :
    t.Placed fun place s => fits place s ∧ fits' place s := by
  induction h with
  | cls _ hfits ih =>
      cases h' with
      | cls h' hfits' => exact .cls (fun d hd => ih d hd (h' d hd)) fun d hd => ⟨hfits d hd, hfits' d hd⟩
  | param _ _ hownerFits hargsFit ihowner ihargs =>
      cases h' with
      | param howner' hargs' hownerFits' hargsFit' =>
          exact .param (fun t ht => ihowner t ht (howner' t ht)) (fun t ht => ihargs t ht (hargs' t ht))
            (fun t ht => ⟨hownerFits t ht, hownerFits' t ht⟩)
            fun t ht => ⟨hargsFit t ht, hargsFit' t ht⟩
  | array _ hfits ih =>
      cases h' with
      | array h' hfits' => exact .array (ih h') ⟨hfits, hfits'⟩
  | wild _ _ hupperFit hlowerFit ihupper ihlower =>
      cases h' with
      | wild hupper' hlower' hupperFit' hlowerFit' =>
          exact .wild (fun t ht => ihupper t ht (hupper' t ht)) (fun t ht => ihlower t ht (hlower' t ht))
            (fun t ht => ⟨hupperFit t ht, hupperFit' t ht⟩)
            fun t ht => ⟨hlowerFit t ht, hlowerFit' t ht⟩
  | var v => exact .var v

/-! ## Solid places -/

theorem form_arrayOf (t : Ty) : t.arrayOf.form ≠ .var ∧ (t.form ≠ .wild → t.arrayOf.form ≠ .wild) := by
  cases t with
  | wild _ _ => exact ⟨nofun, fun h => absurd rfl h⟩
  | _ => exact ⟨nofun, fun _ => nofun⟩

theorem form_subst_ne_var (h : t.form ≠ .var) : (t.subst σ).form ≠ .var := by
  cases t with
  | array component => exact (form_arrayOf (component.subst σ)).1
  | var v => exact absurd rfl h
  | _ => nofun

theorem solid_component (ht : t.Placed Place.Solid) (h : Place.component.Solid t) :
    Place.component.Solid (t.subst σ) := by
  induction ht with
  | cls _ _ _ => exact h
  | param _ _ _ _ _ _ => exact ⟨nofun, nofun⟩
  | array _ hfits ih =>
      obtain ⟨hvar, hwild⟩ := form_arrayOf (Ty.subst σ _)
      exact ⟨hvar, hwild (ih hfits).2⟩
  | wild _ _ _ _ _ _ => exact absurd rfl h.2
  | var v => exact absurd rfl h.1

theorem solid_subst (himage : ∀ v, ((var v).subst σ).Placed Place.Solid)
    (ht : t.Placed Place.Solid) : (t.subst σ).Placed Place.Solid := by
  refine placed_subst ?_ ?_ trivial himage ht
  · intro place s hs hfits
    cases place with
    | owner => exact form_subst_ne_var hfits
    | component => exact solid_component hs hfits
    | _ => trivial
  · intro s hs hfits hplaced
    have hsolid := solid_component (σ := σ) hs hfits
    generalize s.subst σ = s' at hplaced hsolid
    cases s' with
    | cls c => exact placed_cls (fun _ => ⟨nofun, nofun⟩) (.arrayOf c)
    | wild _ _ => exact absurd rfl hsolid.2
    | var v => exact absurd rfl hsolid.1
    | _ => exact .array hplaced hsolid

end Ty

namespace Registry

open Ty (Place)

variable {registry : Registry} {fits : Place → Ty → Prop}

theorem form_formWithin (registry : Registry) (outerForm : ClassRef → Ty) (c : ClassRef) :
    (registry.formWithin outerForm c).form ≠ .var ∧
      (registry.formWithin outerForm c).form ≠ .wild := by
  cases c with
  | named name kind =>
      rcases formWithin_raw registry outerForm
        (show (ClassRef.named name kind).isArray = false from rfl) with h | ⟨owner, h⟩
      all_goals
        rw [h]
        exact ⟨nofun, nofun⟩
  | array name component =>
      rcases formWithin_array registry outerForm name component with ⟨-, h⟩ | ⟨-, h⟩
      all_goals
        rw [h]
        exact ⟨nofun, nofun⟩

/-- The arguments of a generic form are variables, its owners are classes and forms. -/
theorem placed_genericForm (hargument : ∀ v, fits .argument (.var v))
    (hsolid : ∀ t : Ty, t.form ≠ .var → t.form ≠ .wild → fits .owner t ∧ fits .component t)
    (c : ClassRef) : (registry.genericForm c).Placed fits := by
  have hcls : ∀ d, (Ty.cls d).Placed fits :=
    Ty.placed_cls fun d => (hsolid (.cls d) nofun nofun).2
  have hsteps : ∀ hops c, (registry.formSteps hops c).Placed fits ∧
      (registry.formSteps hops c).form ≠ .var ∧ (registry.formSteps hops c).form ≠ .wild := by
    intro hops
    induction hops with
    | zero => exact fun c => ⟨hcls c, nofun, nofun⟩
    | succ hops ih =>
        intro c
        refine ⟨?_, form_formWithin registry _ c⟩
        simp only [formSteps]
        induction c with
        | array name component ihcomponent =>
            obtain ⟨hvar, hwild⟩ := form_formWithin registry (registry.formSteps hops) component
            rcases formWithin_array registry (registry.formSteps hops) name component
              with ⟨-, h⟩ | ⟨-, h⟩
            · rw [h]
              exact hcls _
            · rw [h]
              exact .array ihcomponent (hsolid _ hvar hwild).2
        | named name kind =>
            rw [formWithin_of_plain registry _ rfl]
            split
            · exact hcls _
            · have howner : ∀ o ∈ registry.ownerForm (registry.formSteps hops) (.named name kind),
                  o.Placed fits ∧ fits .owner o := by
                intro o ho
                obtain ⟨outer, -, rfl⟩ := Option.map_eq_some_iff.mp ho
                split
                · exact ⟨hcls outer, (hsolid (.cls outer) nofun nofun).1⟩
                · obtain ⟨hplaced, hvar, hwild⟩ := ih outer
                  exact ⟨hplaced, (hsolid _ hvar hwild).1⟩
              refine .param (fun o ho => (howner o ho).1) ?_ (fun o ho => (howner o ho).2) ?_
              · intro a ha
                obtain ⟨v, -, rfl⟩ := List.mem_map.mp ha
                exact .var v
              · intro a ha
                obtain ⟨v, -, rfl⟩ := List.mem_map.mp ha
                exact hargument v
  exact (hsteps _ c).1

theorem valid_genericForm (c : ClassRef) : (registry.genericForm c).Valid :=
  placed_genericForm (fun _ => rfl) (fun _ _ _ => ⟨trivial, trivial⟩) c

theorem solid_genericForm (c : ClassRef) : (registry.genericForm c).Placed Place.Solid :=
  placed_genericForm (fun _ => trivial) (fun _ hvar hwild => ⟨hvar, hvar, hwild⟩) c

end Registry

end Generics
