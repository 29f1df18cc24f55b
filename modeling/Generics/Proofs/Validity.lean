import Generics.Formation
import Generics.Proofs.Ascent
import Generics.Proofs.Places

/-!
Navigation builds types without the checks of the factory. On the way up a type
stays valid as long as no wildcard is put in for a bound; on the way down as long
as no primitive is found in the place of a variable, and only arrays and owners
have places for both.
-/

namespace Generics

namespace Substitution

open Ty (Place)

variable {θ : Substitution} {Q : Ty → Prop}

/-! ## Matching -/

/-- Everything that is bound has a property. -/
def Binds (θ : Substitution) (Q : Ty → Prop) : Prop := ∀ pair ∈ θ.bindings, Q pair.2

theorem Binds.get? (h : θ.Binds Q) {v : TyVar} {t : Ty} (hget : θ.get? v = some t) : Q t := by
  obtain ⟨w, hmem, -⟩ := mem_of_get? hget
  exact h (w, t) hmem

theorem Binds.image (h : θ.Binds Q) {v : TyVar} (hv : Q (.var v)) : Q ((Ty.var v).subst θ) := by
  rw [Ty.subst_var]
  cases hget : θ.get? v with
  | none => exact hv
  | some t => exact h.get? hget

/-- A match that goes through binds only what has a property. -/
def Keeps (Q : Ty → Prop) (result : Except MatchFault Substitution) : Prop :=
  ∀ θ, result = .ok θ → θ.Binds Q

theorem keeps_ok (h : θ.Binds Q) : Keeps Q (.ok θ) := by
  rintro _ ⟨⟩
  exact h

theorem keeps_error (fault : MatchFault) : Keeps Q (.error fault) := by
  rintro _ ⟨⟩

theorem Keeps.bind {result : Except MatchFault Substitution}
    {next : Substitution → Except MatchFault Substitution} (h : Keeps Q result)
    (hnext : ∀ θ, θ.Binds Q → Keeps Q (next θ)) : Keeps Q (result >>= next) := by
  cases result with
  | error fault => exact keeps_error fault
  | ok θ => exact hnext θ (h θ rfl)

theorem keeps_bind (hθ : θ.Binds Q) (v : TyVar) {t : Ty} (ht : Q t) : Keeps Q (θ.bind v t) := by
  unfold Substitution.bind
  split
  · exact keeps_ok hθ
  · split
    · split
      · exact keeps_ok hθ
      · exact keeps_error _
    · apply keeps_ok
      intro pair hpair
      rcases List.mem_append.mp hpair with hold | hnew
      · exact hθ pair hold
      · obtain rfl := List.mem_singleton.mp hnew
        exact ht

theorem keeps_unifyAll {shapes actuals : List Ty}
    (h : ∀ s ∈ shapes, ∀ a ∈ actuals, ∀ θ : Substitution, θ.Binds Q → Keeps Q (unify s a θ))
    (hθ : θ.Binds Q) : Keeps Q (unifyAll shapes actuals θ) := by
  induction shapes generalizing actuals θ with
  | nil => exact keeps_ok hθ
  | cons shape shapes ih =>
      cases actuals with
      | nil => exact keeps_ok hθ
      | cons actual actuals =>
          apply (h shape List.mem_cons_self actual List.mem_cons_self θ hθ).bind
          exact fun θ' hθ' => ih
            (fun s hs a ha => h s (List.mem_cons_of_mem _ hs) a (List.mem_cons_of_mem _ ha)) hθ'

/-- A relation of shapes and types that holds of the parts that are matched when it holds of
the whole, and at a variable gives a property of the type. -/
structure Descends (M : Ty → Ty → Prop) (Q : Ty → Prop) : Prop where
  component : ∀ {component actual component'}, M (.array component) actual →
    actual.component? = some component' → M component component'
  argument : ∀ {owner owner' raw raw' args args'},
    M (.param owner raw args) (.param owner' raw' args') → ∀ s ∈ args, ∀ a ∈ args', M s a
  owner : ∀ {o o' raw raw' args args'},
    M (.param (some o) raw args) (.param (some o') raw' args') → M o o'
  bound : ∀ {upper lower upper' lower'}, M (.wild upper lower) (.wild upper' lower') →
    (∀ s ∈ upper, ∀ a ∈ upper', M s a) ∧ ∀ s ∈ lower, ∀ a ∈ lower', M s a
  root : ∀ {v actual}, M (.var v) actual → Q actual

/-- What a match binds has the property that it has at a variable of the shape. -/
theorem keeps_unify {M : Ty → Ty → Prop} (hM : Descends M Q) {shape actual : Ty}
    (h : M shape actual) (hθ : θ.Binds Q) : Keeps Q (unify shape actual θ) := by
  induction shape using Ty.parts generalizing actual θ with
  | cls c =>
      rw [unify.eq_def]
      split
      · exact keeps_ok hθ
      · cases actual with
        | wild _ _ => exact keeps_ok hθ
        | _ => exact keeps_error _
  | param owner raw args ihowner ihargs =>
      rw [unify.eq_def]
      split
      · exact keeps_ok hθ
      · cases actual with
        | wild _ _ => exact keeps_ok hθ
        | param owner' raw' args' =>
            simp only
            split
            · exact keeps_error _
            · refine (keeps_unifyAll (fun s hs a ha θ hθ =>
                ihargs s hs (hM.argument h s hs a ha) hθ) hθ).bind fun θ hθ => ?_
              cases owner with
              | none => exact keeps_ok hθ
              | some o =>
                  cases owner' with
                  | none => exact keeps_ok hθ
                  | some o' => exact ihowner o rfl (hM.owner h) hθ
        | _ => exact keeps_error _
  | array component ih =>
      rw [unify.eq_def]
      split
      · exact keeps_ok hθ
      · have hnext : ∀ component', actual.component? = some component' →
            Keeps Q (unify component component' θ) :=
          fun component' hcomponent => ih (hM.component h hcomponent) hθ
        generalize actual.component? = inner at hnext
        cases actual with
        | wild _ _ => exact keeps_ok hθ
        | _ =>
            cases inner with
            | none => exact keeps_error _
            | some component' => exact hnext component' rfl
  | wild upper lower ihupper ihlower =>
      rw [unify.eq_def]
      split
      · exact keeps_ok hθ
      · cases actual with
        | wild upper' lower' =>
            obtain ⟨hupper, hlower⟩ := hM.bound h
            simp only
            split
            · exact keeps_error _
            · exact (keeps_unifyAll (fun s hs a ha θ hθ => ihupper s hs (hupper s hs a ha) hθ) hθ).bind
                fun θ hθ => keeps_unifyAll (fun s hs a ha θ hθ => ihlower s hs (hlower s hs a ha) hθ) hθ
        | _ => exact keeps_ok hθ
  | var v =>
      rw [unify.eq_def]
      split
      · exact keeps_ok hθ
      · exact keeps_bind hθ v (hM.root h)

/-- A valid type that can be an argument. -/
def Bindable (t : Ty) : Prop := t.Valid ∧ t.isPrimitive = false

/-- A shape may be matched with a valid type: no variable of the shape meets a
primitive, since it stands where none is refused, or since there is none. -/
structure Matchable (shape actual : Ty) : Prop where
  valid : actual.Valid
  safe : shape.Placed Place.Solid ∨ actual.Placed Place.Reference
  root : shape.form = .var → actual.isPrimitive = false

section

variable {shape actual : Ty} {outer outer' : Option Ty} {raw raw' : ClassRef} {args args' : List Ty}
variable {upper lower upper' lower' : List Ty}

theorem Matchable.component {component component' : Ty} (h : Matchable (.array component) actual)
    (hcomponent : actual.component? = some component') : Matchable component component' := by
  obtain ⟨hvalid, hsafe, -⟩ := h
  refine ⟨(hvalid.component hcomponent).1, ?_, ?_⟩
  · exact hsafe.imp (fun hsolid => (hsolid.component rfl).1) fun href => (href.component hcomponent).1
  · intro hvar
    rcases hsafe with hsolid | href
    · exact absurd hvar (hsolid.component rfl).2.1
    · exact (href.component hcomponent).2

theorem Matchable.argument (h : Matchable (.param outer raw args) (.param outer' raw' args')) :
    ∀ s ∈ args, ∀ a ∈ args', Matchable s a := by
  obtain ⟨hvalid, hsafe, -⟩ := h
  intro s hs a ha
  cases hvalid with
  | param _ hargs _ hfits =>
      refine ⟨hargs a ha, hsafe.imp (fun hsolid => ?_) (fun href => ?_), fun _ => hfits a ha⟩
      · cases hsolid with
        | param _ hargs _ _ => exact hargs s hs
      · cases href with
        | param _ hargs _ _ => exact hargs a ha

theorem Matchable.owner {o o' : Ty}
    (h : Matchable (.param (some o) raw args) (.param (some o') raw' args')) : Matchable o o' := by
  obtain ⟨hvalid, hsafe, -⟩ := h
  have hvalid' : o'.Valid := by
    cases hvalid with
    | param howner _ _ _ => exact howner o' rfl
  rcases hsafe with hsolid | href
  · cases hsolid with
    | param howner _ hfits _ =>
        exact ⟨hvalid', Or.inl (howner o rfl), fun hvar => absurd hvar (hfits o rfl)⟩
  · cases href with
    | param howner _ hfits _ => exact ⟨hvalid', Or.inr (howner o' rfl), fun _ => hfits o' rfl⟩

theorem Matchable.bound (h : Matchable (.wild upper lower) (.wild upper' lower')) :
    (∀ s ∈ upper, ∀ a ∈ upper', Matchable s a) ∧ ∀ s ∈ lower, ∀ a ∈ lower', Matchable s a := by
  obtain ⟨hvalid, hsafe, -⟩ := h
  cases hvalid with
  | wild hupper hlower hupperFit hlowerFit =>
      rcases hsafe with hsolid | href
      · cases hsolid with
        | wild hupper' hlower' _ _ =>
            exact ⟨fun s hs a ha => ⟨hupper a ha, Or.inl (hupper' s hs), fun _ => (hupperFit a ha).1⟩,
              fun s hs a ha => ⟨hlower a ha, Or.inl (hlower' s hs), fun _ => (hlowerFit a ha).1⟩⟩
      · cases href with
        | wild hupper' hlower' _ _ =>
            exact ⟨fun _ _ a ha => ⟨hupper a ha, Or.inr (hupper' a ha), fun _ => (hupperFit a ha).1⟩,
              fun _ _ a ha => ⟨hlower a ha, Or.inr (hlower' a ha), fun _ => (hlowerFit a ha).1⟩⟩

theorem descends_matchable : Descends Matchable Bindable where
  component := Matchable.component
  argument := Matchable.argument
  owner := Matchable.owner
  bound := Matchable.bound
  root h := ⟨h.valid, h.root rfl⟩

/-- What a match binds is valid, and not primitive. -/
theorem unify_bindable (h : Matchable shape actual) (hθ : θ.Binds Bindable) :
    Keeps Bindable (unify shape actual θ) :=
  keeps_unify descends_matchable h hθ

end

end Substitution

namespace Env

open Ty (Place)

variable {env : Env} {fits : Place → Ty → Prop} {s t u : Ty} {c target : ClassRef}

/-! ## The factory -/

/-- What the factory makes of valid types is valid. -/
theorem valid_applied {owner : Option Ty} {args : List Ty} (howner : ∀ o ∈ owner, o.Valid)
    (hargs : ∀ a ∈ args, a.Valid) (h : env.applied owner c args = .ok t) : t.Valid := by
  unfold applied at h
  dsimp only at h
  split at h
  · cases h
  · split at h
    · cases h
    · split at h
      · cases h
      · rename_i hreference
        split at h
        · cases h
          exact Ty.valid_cls c
        · cases h
          refine .param howner hargs (fun _ _ => trivial) fun a ha => ?_
          have hnot := List.find?_eq_none.mp hreference a ha
          exact Bool.eq_false_of_not_eq_true hnot

theorem boundFault?_eq_none (h : t.boundFault? = none) : Place.bound.Admits t := by
  unfold Ty.boundFault? at h
  split at h
  · cases h
  · split at h
    · cases h
    · exact ⟨by simpa using ‹¬t.isPrimitive = true›, by simpa using ‹¬t.isWildcard = true›⟩

theorem valid_subtypeOf (ht : t.Valid) (h : t.subtypeOf = .ok u) : u.Valid := by
  unfold Ty.subtypeOf at h
  split at h
  · cases h
  · rename_i hfault
    cases h
    exact Ty.placed_wildcard ⟨rfl, rfl⟩
      (List.forall_mem_singleton.mpr ⟨ht, boundFault?_eq_none hfault⟩) (List.forall_mem_nil _)

theorem valid_supertypeOf (ht : t.Valid) (h : t.supertypeOf = .ok u) : u.Valid := by
  unfold Ty.supertypeOf at h
  split at h
  · cases h
  · rename_i hfault
    cases h
    exact Ty.placed_wildcard ⟨rfl, rfl⟩ (List.forall_mem_nil _)
      (List.forall_mem_singleton.mpr ⟨ht, boundFault?_eq_none hfault⟩)

/-- Everything declared is valid. -/
structure Admitted (env : Env) : Prop where
  edges : ∀ c, ∀ e ∈ env.classes.directSupertypes c, e.Valid
  bounds : ∀ v, ∀ b ∈ env.bounds.effective v, b.Valid

/-! ## The way up -/

/-- No wildcard is put in for what is a bound in an edge. -/
def BoundsKept (env : Env) (s : Ty) : Prop :=
  env.isRawUse s = true ∨ ∀ e ∈ env.classes.directSupertypes (env.erase s),
    e.Placed fun place b => place = .bound → (b.subst (env.carried s)).isWildcard = false

theorem placed_carried (ht : t.Placed fits) (v : TyVar) :
    ((Ty.var v).subst (env.carried t)).Placed fits := by
  refine carried_forall (carriedPairs_forall (fun owner raw args h => ?_) ht) (.var v)
  cases h with
  | param howner hargs _ _ => exact ⟨howner, hargs⟩

theorem isPrimitive_carried (ht : t.Valid) (v : TyVar) :
    ((Ty.var v).subst (env.carried t)).isPrimitive = false := by
  have hargs : ∀ pair ∈ env.carriedPairs t, pair.2.isPrimitive = false := by
    refine carriedPairs_forall (P := Ty.Valid) (Q := fun s => s.isPrimitive = false)
      (fun owner raw args h => ?_) ht
    cases h with
    | param howner _ _ hargsFit => exact ⟨howner, hargsFit⟩
  exact carried_forall (Q := fun s => s.isPrimitive = false) hargs rfl

theorem valid_instantiated (hs : s.Valid) (hkept : env.BoundsKept s) {e : Ty}
    (he : e ∈ env.classes.directSupertypes (env.erase s)) (hvalid : e.Valid) :
    (env.instantiated s e).Valid := by
  unfold instantiated
  split
  · exact Ty.valid_cls _
  · rename_i hraw
    exact Ty.valid_subst (placed_carried hs) (isPrimitive_carried hs)
      (hvalid.and (hkept.resolve_left hraw e he))

theorem valid_viewStart (hs : s.Valid) (h : env.viewStart s = some u) : u.Valid := by
  cases s with
  | cls c =>
      cases h
      split
      · exact hs
      · exact Registry.valid_genericForm c
  | param _ _ _ =>
      cases h
      exact hs
  | array _ =>
      cases h
      exact Ty.valid_cls _
  | wild _ _ => cases h
  | var _ => cases h

/-- What is found above a valid type is valid, if the bounds are kept on the way. -/
theorem valid_supertype (hadmitted : env.Admitted) (ht : t.Valid)
    (hkept : ∀ s, env.OnWayUp t s → env.BoundsKept s) (h : env.supertype t target = .ok u) :
    u.Valid := by
  refine supertype_preserves (P := fun s => s.Valid ∧ ∀ r, env.OnWayUp s r → env.OnWayUp t r)
    (Q := fun s => s.Valid ∧ env.OnWayUp t s) ?_ ?_ ?_ ?_ (fun _ h => h.1) (Ty.valid_cls _)
    (fun _ => Ty.valid_arrayOf) ⟨ht, fun _ h => h⟩ h
  · rintro s bounds ⟨hs, hpart⟩ hopen b hb
    refine ⟨?_, fun r hr => hpart r (.bound hopen hb hr)⟩
    cases s with
    | wild _ _ =>
        cases hopen
        cases hs with
        | wild hupper _ _ _ => exact hupper b hb
    | var v =>
        cases hopen
        exact hadmitted.bounds v b hb
    | _ => cases hopen
  · rintro s component ⟨hs, hpart⟩ hcomponent
    exact ⟨(hs.component hcomponent).1, fun r hr => hpart r (.component hcomponent hr)⟩
  · rintro s r ⟨hs, hpart⟩ hstart
    exact ⟨valid_viewStart hs hstart, hpart r (.start hstart)⟩
  · rintro s ⟨hs, hmet⟩ e he
    exact ⟨valid_instantiated hs (hkept s hmet) he (hadmitted.edges _ e he), hmet.edge he⟩

/-! ## The way down -/

/-- In no edge a variable is the component of an array, or an owner. -/
def SolidEdges (env : Env) : Prop :=
  ∀ c, ∀ e ∈ env.classes.directSupertypes c, e.Placed Place.Solid

theorem solid_view (hedges : env.SolidEdges)
    (h : env.viewAs (env.classes.genericForm c) target = .found u) : u.Placed Place.Solid := by
  have hcls : ∀ d, (Ty.cls d).Placed Place.Solid := Ty.placed_cls fun _ => ⟨nofun, nofun⟩
  have hform : (env.classes.genericForm c).Placed Place.Solid := Registry.solid_genericForm c
  have hstart : ∀ r, env.viewStart (env.classes.genericForm c) = some r → r.Placed Place.Solid := by
    intro r hr
    generalize env.classes.genericForm c = form at hform hr
    cases form with
    | cls d =>
        cases hr
        split
        · exact hform
        · exact Registry.solid_genericForm d
    | param _ _ _ =>
        cases hr
        exact hform
    | array _ =>
        cases hr
        exact hcls _
    | wild _ _ => cases hr
    | var _ => cases hr
  have hedge : ∀ s : Ty, s.Placed Place.Solid → ∀ e ∈ env.classes.directSupertypes (env.erase s),
      (env.instantiated s e).Placed Place.Solid := by
    intro s hs e he
    unfold instantiated
    split
    · exact hcls _
    · exact Ty.solid_subst (placed_carried hs) (hedges _ e he)
  rcases viewAs_preserves hstart hedge h with rfl | hu
  · exact hcls _
  · exact hu

theorem inferSubtype_of_plainSubtype (h : env.plainSubtype t target = .ok u) :
    env.isSubclass target (env.erase t) = true ∧ env.inferSubtype t target = .ok u := by
  rw [plainSubtype] at h
  cases hsub : env.isSubclass target (env.erase t) with
  | false =>
      rw [hsub] at h
      cases h
  | true =>
      rw [hsub] at h
      refine ⟨rfl, ?_⟩
      cases hinfer : env.inferSubtype t target with
      | error reason =>
          rw [hinfer] at h
          cases h
      | ok candidate =>
          rw [hinfer] at h
          change (if env.isAssignable t candidate then Except.ok candidate else throw _) = _ at h
          split at h
          · exact h
          · cases h

/-- A descendant is inferred bare, or from the view of its generic form. Below a
class of its own name it is bare. -/
theorem inferSubtype_cases (h : env.inferSubtype t target = .ok u) :
    u = .cls target ∨
      (∀ c, t = .cls c → c.name ≠ target.name) ∧
        ∃ shape θ, env.viewAs (env.classes.genericForm target) (env.erase t) = .found shape ∧
          Substitution.unify shape t .empty = .ok θ ∧
          u = (env.classes.genericForm target).subst θ := by
  unfold inferSubtype at h
  dsimp only at h
  split at h
  · cases h
    exact Or.inl rfl
  · rename_i hbare
    right
    constructor
    · rintro c rfl hname
      apply hbare
      have hraw : env.erase (.cls c) = c := rfl
      rw [hraw, Registry.parameters_of_name hname]
      cases (env.classes.parameters target).isEmpty <;> rfl
    · cases hview : env.viewAs (env.classes.genericForm target) (env.erase t) with
      | found shape =>
          rw [hview] at h
          cases hunify : Substitution.unify shape t .empty with
          | error fault =>
              simp only [Outcome.get?, hunify] at h
              cases h
          | ok θ =>
              simp only [Outcome.get?, hunify, resolve_genericForm] at h
              cases h
              exact ⟨shape, θ, rfl, hunify, rfl⟩
      | _ =>
          rw [hview] at h
          cases h

/-- A type is matched with a shape from the edges without harm: it is a class,
or one of the two keeps variables and primitives apart. -/
def MatchedSafely (env : Env) (t : Ty) : Prop :=
  t.class?.isSome = true ∨ env.SolidEdges ∨ t.Placed Place.Reference

theorem valid_plainSubtype (ht : t.Valid) (harray : t.isArray = false) (hsafe : env.MatchedSafely t)
    (h : env.plainSubtype t target = .ok u) : u.Valid := by
  obtain ⟨hsub, hinfer⟩ := inferSubtype_of_plainSubtype h
  rcases inferSubtype_cases hinfer with rfl | ⟨hname, shape, θ, hview, hunify, rfl⟩
  · exact Ty.valid_cls target
  · have hprimitive : t.isPrimitive = false := by
      cases t with
      | cls c => exact (isPrimitive_of_isSubclass hsub fun heq => hname c rfl heq.symm).2
      | _ => rfl
    have hmatchable : Substitution.Matchable shape t := by
      refine ⟨ht, ?_, fun _ => hprimitive⟩
      rcases hsafe with hclass | hedges | href
      · right
        cases t with
        | cls c =>
            obtain ⟨name, kind, rfl⟩ := ClassRef.exists_named harray
            exact .cls nofun nofun
        | _ => cases hclass
      · exact Or.inl (solid_view hedges hview)
      · exact Or.inr href
    have hbinds := Substitution.unify_bindable hmatchable (List.forall_mem_nil _) θ hunify
    have himage : ∀ v, Substitution.Bindable ((Ty.var v).subst θ) :=
      fun v => hbinds.image ⟨.var v, rfl⟩
    refine Ty.valid_subst (fun v => (himage v).1) (fun v => (himage v).2)
      ((Registry.valid_genericForm target).and ?_)
    exact Registry.placed_genericForm (fun _ => nofun) (fun _ _ _ => ⟨nofun, nofun⟩) target

theorem MatchedSafely.component (h : env.MatchedSafely t) (hs : t.component? = some s) :
    env.MatchedSafely s := by
  rcases h with hclass | hedges | href
  · left
    cases t with
    | cls c =>
        obtain ⟨d, -, rfl⟩ := Option.map_eq_some_iff.mp hs
        rfl
    | _ => cases hclass
  · exact Or.inr (Or.inl hedges)
  · exact Or.inr (Or.inr (href.component hs).1)

theorem subtype_cases (h : env.subtype t target = .ok u) :
    (t.isArray = false ∧ env.plainSubtype t target = .ok u) ∨
      ∃ name targetComponent component u', target = .array name targetComponent ∧
        t.component? = some component ∧ env.subtype component targetComponent = .ok u' ∧
        u = u'.arrayOf := by
  rw [subtype.eq_def] at h
  cases harray : t.isArray with
  | false =>
      refine Or.inl ⟨rfl, ?_⟩
      cases hplain : env.plainSubtype t target with
      | ok candidate => cases t <;> simp_all
      | error reason => cases t <;> simp_all
  | true =>
      right
      cases target with
      | named _ _ => cases t <;> simp_all
      | array name targetComponent =>
          cases hcomponent : t.component? with
          | none => cases t <;> simp_all
          | some component =>
              cases hrec : env.subtype component targetComponent with
              | error fault => cases t <;> simp_all [Except.map]
              | ok u' =>
                  refine ⟨name, targetComponent, component, u', rfl, rfl, hrec, ?_⟩
                  cases t <;> simp_all [Except.map]

/-- What is found below a valid type is valid, if it is matched safely. -/
theorem valid_subtype (ht : t.Valid) (hsafe : env.MatchedSafely t)
    (h : env.subtype t target = .ok u) : u.Valid := by
  induction target generalizing t u with
  | named name kind =>
      rcases subtype_cases h with ⟨harray, hplain⟩ | ⟨_, _, _, _, heq, -⟩
      · exact valid_plainSubtype ht harray hsafe hplain
      · cases heq
  | array name targetComponent ih =>
      rcases subtype_cases h with ⟨harray, hplain⟩ | ⟨_, _, component, u', heq, hcomponent, hrec, rfl⟩
      · exact valid_plainSubtype ht harray hsafe hplain
      · cases heq
        exact Ty.valid_arrayOf (ih (ht.component hcomponent).1 (hsafe.component hcomponent) hrec)

/-- Navigation from a valid type builds valid types: upwards where no wildcard is
put in for a bound, and downwards where no variable meets a primitive. -/
theorem navigation_valid (hadmitted : env.Admitted) (ht : t.Valid) :
    ((∀ s, env.OnWayUp t s → env.BoundsKept s) → ∀ u, env.supertype t target = .ok u → u.Valid) ∧
      (env.MatchedSafely t → ∀ u, env.subtype t target = .ok u → u.Valid) :=
  ⟨fun hkept _ => valid_supertype hadmitted ht hkept, fun hsafe _ => valid_subtype ht hsafe⟩

/-! ## A wildcard as a bound, a primitive as an argument -/

theorem admitted_of_edges {registry : Registry}
    (h : ∀ entry ∈ registry.decls.toList, ∀ e ∈ entry.2.supertypes, e.Valid) :
    (⟨registry, .empty⟩ : Env).Admitted where
  edges c e he := by
    cases hc : c.isArray with
    | false => exact Registry.forall_edges h hc e he
    | true =>
        obtain ⟨d, -, rfl⟩ := Subtyping.array_edge hc he
        exact Ty.valid_cls d
  bounds v b hb := by
    obtain rfl := List.mem_singleton.mp (show b ∈ [Ty.object] from hb)
    exact Ty.valid_cls _

def comparableClass : ClassRef := .named "java.lang.Comparable" .interface

def sortedClass : ClassRef := .named "Sorted" .ordinary

def arraysClass : ClassRef := .named "ArrayBox" .ordinary

def comparableVar : TyVar := ⟨1, .ofClass comparableClass, "T"⟩

def sortedVar : TyVar := ⟨2, .ofClass sortedClass, "E"⟩

def arraysVar : TyVar := ⟨3, .ofClass arraysClass, "E"⟩

/-- A class with a parameter in a bound, and a class with a parameter in an array. -/
def placesEnv : Env :=
  ⟨[(ClassDecl.of comparableClass).withParameters [comparableVar],
    ((ClassDecl.of sortedClass).withParameters [sortedVar]).implementing
      (.param none comparableClass [.wild [.object] [.var sortedVar]]),
    ((ClassDecl.of arraysClass).withParameters [arraysVar]).extending
      (.param none Subtyping.boxClass [.array (.var arraysVar)])].foldl
      Registry.register Subtyping.boxEnv.classes, .empty⟩

theorem valid_single {raw : ClassRef} (ht : t.Valid) (hprimitive : t.isPrimitive = false) :
    (Ty.param none raw [t]).Valid :=
  .param nofun (List.forall_mem_singleton.mpr ht) nofun (List.forall_mem_singleton.mpr hprimitive)

theorem placesEnv_admitted : placesEnv.Admitted := by
  apply admitted_of_edges
  refine Registry.forall_supertypes (show _ = [Ty.param none Subtyping.boxClass
    [.array (.var arraysVar)], .object, .object,
    .param none comparableClass [.wild [.object] [.var sortedVar]], .object] from rfl) ?_
  have hobject := Ty.valid_cls ClassRef.object
  have hbound : (Ty.wild [.object] [.var sortedVar]).Valid :=
    .lower hobject (.var _) ⟨rfl, rfl⟩ ⟨rfl, rfl⟩
  simp only [List.forall_mem_cons]
  exact ⟨valid_single (.array (.var _) trivial) rfl, hobject, hobject, valid_single hbound rfl,
    hobject, List.forall_mem_nil _⟩

def sortedType (arg : Ty) : Ty := .param none sortedClass [arg]

def boxType (arg : Ty) : Ty := .param none Subtyping.boxClass [arg]

theorem sorted_onWayUp (h : placesEnv.OnWayUp (sortedType stringType) s) :
    s ∈ [sortedType stringType, .object,
      .param none comparableClass [.wild [.object] [stringType]]] := by
  refine h.preserves rfl rfl ?_ fun s hs e he => ?_
  · rintro r ⟨⟩
    exact List.mem_cons_self
  · simp only [List.mem_cons, List.not_mem_nil, or_false] at hs
    rcases hs with rfl | rfl | rfl
    · have hedges : e ∈ [Ty.object, .param none comparableClass [.wild [.object] [.var sortedVar]]] :=
        he
      rcases List.mem_cons.mp hedges with rfl | hrest
      · exact show Ty.object ∈ _ by simp
      · obtain rfl := List.mem_singleton.mp hrest
        exact List.mem_cons_of_mem _ (List.mem_cons_of_mem _ (List.mem_singleton.mpr rfl))
    · exact absurd (show e ∈ [] from he) List.not_mem_nil
    · exact absurd (show e ∈ [] from he) List.not_mem_nil

/-- A class that is compared with strings, and a box of arrays of strings. -/
theorem navigation_valid_strings :
    (∃ u, placesEnv.supertype (sortedType stringType) comparableClass = .ok u ∧ u.Valid) ∧
      ∃ u, placesEnv.subtype (boxType stringType.arrayOf) arraysClass = .ok u ∧ u.Valid := by
  have hup : placesEnv.supertype (sortedType stringType) comparableClass =
      .ok (.param none comparableClass [.wild [.object] [stringType]]) := rfl
  have hdown : placesEnv.subtype (boxType stringType.arrayOf) arraysClass =
      .ok (.param none arraysClass [stringType]) := rfl
  have hsorted : (sortedType stringType).Valid := valid_single (Ty.valid_cls _) rfl
  have hbox : (boxType stringType.arrayOf).Valid := valid_single (Ty.valid_cls _) rfl
  refine ⟨⟨_, hup, (navigation_valid placesEnv_admitted hsorted).1 ?_ _ hup⟩,
    ⟨_, hdown, (navigation_valid placesEnv_admitted hbox).2 ?_ _ hdown⟩⟩
  · intro s hs
    have hs := sorted_onWayUp hs
    simp only [List.mem_cons, List.not_mem_nil, or_false] at hs
    rcases hs with rfl | rfl | rfl
    · right
      intro e he
      have hedges : e ∈ [Ty.object, .param none comparableClass [.wild [.object] [.var sortedVar]]] :=
        he
      rcases List.mem_cons.mp hedges with rfl | hrest
      · exact Ty.placed_object
      · obtain rfl := List.mem_singleton.mp hrest
        exact .param nofun (List.forall_mem_singleton.mpr
          (.lower Ty.placed_object (.var _) (fun _ => rfl) fun _ => rfl))
          nofun (List.forall_mem_singleton.mpr nofun)
    · exact Or.inr fun e he => absurd (show e ∈ [] from he) List.not_mem_nil
    · exact Or.inr fun e he => absurd (show e ∈ [] from he) List.not_mem_nil
  · refine Or.inr (Or.inr (.param nofun (List.forall_mem_singleton.mpr ?_) nofun
      (List.forall_mem_singleton.mpr trivial)))
    refine .cls ?_ ?_
    · rintro d ⟨⟩
      exact .cls nofun nofun
    · rintro d ⟨⟩
      rfl

/-- A wildcard as an argument becomes a bound on the way up, and a primitive in
an array becomes an argument on the way down. -/
theorem navigation_valid_lost :
    (¬∀ (env : Env) (t u : Ty) (target : ClassRef), env.Admitted → t.Valid →
      env.supertype t target = .ok u → u.Valid) ∧
    ¬∀ (env : Env) (t u : Ty) (target : ClassRef), env.Admitted → t.Valid →
      env.subtype t target = .ok u → u.Valid := by
  constructor
  · intro hclaim
    have hnumbers : (Ty.wild [.cls numberClass] []).Valid := .upper (Ty.valid_cls _) ⟨rfl, rfl⟩
    have hvalid := hclaim placesEnv (sortedType (.wild [.cls numberClass] []))
      (.param none comparableClass [.wild [.object] [.wild [.cls numberClass] []]]) comparableClass
      placesEnv_admitted (valid_single hnumbers rfl) rfl
    cases hvalid with
    | param _ hargs _ _ =>
        cases hargs _ List.mem_cons_self with
        | wild _ _ _ hlower => cases (hlower _ List.mem_cons_self).2
  · intro hclaim
    have hvalid := hclaim placesEnv (boxType intType.arrayOf) (.param none arraysClass [intType])
      arraysClass placesEnv_admitted (valid_single (Ty.valid_cls _) rfl) rfl
    cases hvalid with
    | param _ _ _ hfits => cases hfits _ List.mem_cons_self

end Env

end Generics
