import Generics.Proofs.Climb
import Generics.Proofs.Kinds
import Generics.Proofs.Matching

/-!
Uses of classes. A use supplies the variables that the edges of its class may
mention, or it is raw and they are left aside. Where all uses do so, the steps
from an instance of a generic form are those from the form with the same types
put in, and so are the views.
-/

namespace Generics

namespace Env

open Ty (Same Occurs)

variable {env : Env} {s t u : Ty} {c target : ClassRef} {v : TyVar}

/-- The parameters of a class, and those of the classes that it is an inner class of. -/
def InScope (env : Env) (c : ClassRef) (v : TyVar) : Prop :=
  ((env.carried (env.classes.genericForm c)).get? v).isSome = true

/-- A use of a class with types for all variables in its scope. -/
def Supplies (env : Env) (t : Ty) : Prop :=
  ∀ v, env.InScope (env.erase t) v → ((env.carried t).get? v).isSome = true

/-- Generic classes that an edge names without their arguments, or that are
named by an edge above such a class. -/
inductive UsedRaw (env : Env) : ClassRef → Prop where
  | edge {c e} (hc : c.isArray = false) (he : e ∈ env.classes.directSupertypes c)
      (hraw : env.isRawUse e = true) : UsedRaw env (env.erase e)
  | above {c e} (h : UsedRaw env c) (he : e ∈ env.classes.directSupertypes c)
      (hraw : env.isRawUse (.cls (env.erase e)) = true) : UsedRaw env (env.erase e)

/-- Edges mention what is in scope where they are declared, and supply what is
in scope where they lead, unless they are raw. -/
structure ScopedEdges (env : Env) : Prop where
  scope : ∀ c, c.isArray = false → ∀ e ∈ env.classes.directSupertypes c,
    ∀ v, Occurs v e → env.InScope c v
  uses : ∀ c, c.isArray = false → ∀ e ∈ env.classes.directSupertypes c,
    env.isRawUse e = false → env.Supplies e
  built : ∀ c, c.isArray = false → ∀ e ∈ env.classes.directSupertypes c, e.Built

/-- What an edge of a raw class leads to needs nothing supplied, or is raw itself. -/
def ScopedRaw (env : Env) : Prop :=
  ∀ c, env.UsedRaw c → ∀ e ∈ env.classes.directSupertypes c,
    env.isRawUse (.cls (env.erase e)) = false → env.Supplies (.cls (env.erase e))

/-! ## Carried bindings of an instance -/

theorem carriedPairs_subst (t : Ty) (σ : Substitution) : ∃ extra,
    env.carriedPairs (t.subst σ) =
      (env.carriedPairs t).map (fun pair => (pair.1, pair.2.subst σ)) ++ extra := by
  induction t using Ty.parts with
  | param owner raw args howner _ =>
      have hzip : (env.classes.parameters raw).zip (args.map (Ty.subst σ)) =
          ((env.classes.parameters raw).zip args).map
            fun pair => (pair.1, pair.2.subst σ) := by
        rw [List.zip_map_right]
        rfl
      cases owner with
      | none => exact ⟨[], by simp [carriedPairs, hzip]⟩
      | some owner =>
          obtain ⟨extra, hextra⟩ := howner owner rfl
          exact ⟨extra, by simp [carriedPairs, hzip, hextra]⟩
  | _ => exact ⟨_, rfl⟩

/-- What a type carries, an instance carries with the same types put in. -/
theorem get?_carried_subst (h : (env.carried t).get? v = some u) (σ : Substitution) :
    (env.carried (t.subst σ)).get? v = some (u.subst σ) := by
  rw [get?_carried] at h ⊢
  obtain ⟨extra, hextra⟩ : ∃ extra, env.carriedPairs (t.subst σ) =
      (env.carriedPairs t).map (fun pair => (pair.1, pair.2.subst σ)) ++ extra :=
    carriedPairs_subst t σ
  rw [hextra, Substitution.get?_append]
  have hmapped : Substitution.get?
      ⟨(env.carriedPairs t).map fun pair => (pair.1, pair.2.subst σ)⟩ v =
        some (u.subst σ) := by
    rw [Substitution.get?_map ⟨env.carriedPairs t⟩, h]
    rfl
  rw [hmapped]
  rfl

theorem Supplies.subst (h : env.Supplies t) (σ : Substitution)
    (herase : env.erase (t.subst σ) = env.erase t) : env.Supplies (t.subst σ) := by
  intro v hv
  rw [herase] at hv
  obtain ⟨u, hu⟩ := Option.isSome_iff_exists.mp (h v hv)
  rw [get?_carried_subst hu]
  rfl

theorem built_carried (ht : t.Built) (v : TyVar) :
    ((Ty.var v).subst (env.carried t)).Built := by
  refine carried_forall (carriedPairs_forall (fun owner raw args h => ?_) ht) (.var v)
  cases h with
  | param howner hargs => exact ⟨howner, hargs⟩

theorem built_instantiated {edge : Ty} (hedge : edge.Built) (ht : t.Built) :
    (env.instantiated t edge).Built := by
  unfold instantiated
  split
  · exact .cls _
  · exact Ty.built_subst hedge fun v _ => built_carried ht v

/-! ## Steps -/

theorem raw?_subst (h : t.raw? = some c) (σ : Substitution) : (t.subst σ).raw? = some c := by
  cases t with
  | cls _ => exact h
  | param _ _ _ =>
      rw [Ty.subst_param]
      exact h
  | _ => cases h

theorem isRawUse_subst (h : t.raw? = some c) (σ : Substitution) :
    env.isRawUse (t.subst σ) = env.isRawUse t := by
  cases t with
  | cls _ => rfl
  | param _ _ _ =>
      rw [Ty.subst_param]
      rfl
  | _ => cases h

theorem erase_subst (h : t.raw? = some c) (σ : Substitution) :
    env.erase (t.subst σ) = env.erase t := by
  rw [erase_of_raw? h, erase_of_raw? (raw?_subst h σ)]

/-- Types on the way up from a generic form. -/
structure Use (env : Env) (t : Ty) : Prop where
  raw : HasRaw t
  built : t.Built
  supplied : (env.isRawUse t = true ∧ env.UsedRaw (env.erase t)) ∨
    (env.isRawUse t = false ∧ env.Supplies t)

section

variable (hedges : env.ScopedEdges)

include hedges

/-- A step from a use leads to a use. -/
theorem Use.step (hraw : env.ScopedRaw) (ht : env.Use t) {edge : Ty}
    (hedge : edge ∈ env.classes.directSupertypes (env.erase t)) (hnamed : HasRaw edge) :
    env.Use (env.instantiated t edge) := by
  obtain ⟨c, hc, harray⟩ := ht.raw
  have herase : env.erase t = c := erase_of_raw? hc
  rw [herase] at hedge
  obtain ⟨d, hd, hdarray⟩ := hnamed
  have hbuilt := hedges.built c harray edge hedge
  refine ⟨⟨d, raw?_instantiated hd t, hdarray⟩, built_instantiated hbuilt ht.built, ?_⟩
  · unfold instantiated
    rcases ht.supplied with ⟨hrawUse, hused⟩ | ⟨hrawUse, -⟩
    · -- above a raw use the edge stands for its bare class
      rw [if_pos hrawUse]
      rw [herase] at hused
      cases hbare : env.isRawUse (.cls (env.erase edge)) with
      | true =>
          left
          have habove : env.UsedRaw (env.erase edge) := .above hused hedge hbare
          exact ⟨rfl, habove⟩
      | false =>
          right
          exact ⟨rfl, hraw c hused edge hedge hbare⟩
    · rw [hrawUse]
      simp only [Bool.false_eq_true, if_false]
      rw [isRawUse_subst hd, erase_subst hd]
      cases hbare : env.isRawUse edge with
      | true =>
          left
          exact ⟨rfl, .edge harray hedge hbare⟩
      | false =>
          right
          exact ⟨rfl, (hedges.uses c harray edge hedge hbare).subst _ (erase_subst hd _)⟩

/-- The steps from an instance are those from the type with the same types put in. -/
theorem Use.instantiated_subst (ht : env.Use t) {edge : Ty}
    (hedge : edge ∈ env.classes.directSupertypes (env.erase t)) (σ : Substitution) :
    (env.instantiated t edge).subst σ = env.instantiated (t.subst σ) edge := by
  obtain ⟨c, hc, harray⟩ := ht.raw
  have herase : env.erase t = c := erase_of_raw? hc
  unfold instantiated
  rw [isRawUse_subst hc]
  rcases ht.supplied with ⟨hrawUse, -⟩ | ⟨hrawUse, hsupplied⟩
  · rw [if_pos hrawUse, if_pos hrawUse]
    rfl
  · rw [hrawUse]
    simp only [Bool.false_eq_true, if_false]
    rw [herase] at hedge
    apply Ty.subst_subst (hedges.built c harray edge hedge).writable
    · exact fun v _ => (built_carried ht.built v).writable
    · intro v hv
      have hscope := hedges.scope c harray edge hedge v hv
      rw [← herase] at hscope
      obtain ⟨u, hu⟩ := Option.isSome_iff_exists.mp (hsupplied v hscope)
      rw [Ty.subst_var, Ty.subst_var, hu, get?_carried_subst hu]
      rfl

/-- A type on the way up with the same types put in. -/
def InstanceBy (env : Env) (σ : Substitution) (t t' : Ty) : Prop :=
  env.Use t ∧ t' = t.subst σ

theorem viewStep_subst (hplain : env.classes.PlainEdges) (hraw : env.ScopedRaw)
    (σ : Substitution) (target : ClassRef) {t' : Ty} (h : env.InstanceBy σ t t') :
    (env.viewStep target t).Related (env.InstanceBy σ) (env.InstanceBy σ)
      (env.viewStep target t') := by
  obtain ⟨ht, rfl⟩ := h
  obtain ⟨c, hc, -⟩ := ht.raw
  apply viewStep_related
  apply instantiatedEdges_related (by rw [erase_subst hc])
  intro edge hedge
  exact ⟨ht.step hedges hraw hedge (hasRaw_edge hplain hedge),
    (ht.instantiated_subst hedges hedge σ).symm⟩

end

/-! ## Views of instances -/

theorem use_genericForm (hc : c.isArray = false) : env.Use (env.classes.genericForm c) := by
  have hform : (env.classes.genericForm c).raw? = some c := raw?_genericForm hc
  refine ⟨⟨c, hform, hc⟩, Registry.built_genericForm c, Or.inr ?_⟩
  refine ⟨isRawUse_of_isInstance (Registry.isInstance_genericForm c) hc, ?_⟩
  intro v hv
  rw [erase_of_raw? hform] at hv
  exact hv

/-- The view of an instance is the view of the form with the same types put in. -/
theorem view_subst (hplain : env.classes.PlainEdges) (hedges : env.ScopedEdges)
    (hraw : env.ScopedRaw) (hc : c.isArray = false)
    (hgeneric : (env.classes.genericForm c).isParameterized = true) {shape : Ty}
    (h : env.View (env.classes.genericForm c) target shape) (σ : Substitution) :
    env.View ((env.classes.genericForm c).subst σ) target (shape.subst σ) ∧
      shape.Built ∧ HasRaw shape := by
  have huse : env.Use (env.classes.genericForm c) := use_genericForm hc
  generalize env.classes.genericForm c = form at hgeneric h huse
  obtain ⟨owner, raw, args, rfl⟩ : ∃ owner raw args, form = .param owner raw args := by
    cases form with
    | param owner raw args => exact ⟨owner, raw, args, rfl⟩
    | _ => cases hgeneric
  have hinstance : (Ty.param owner raw args).subst σ =
      .param (owner.map (Ty.subst σ)) raw (args.map (Ty.subst σ)) := Ty.subst_param _ _ _
  cases h with
  | object hobject =>
      refine ⟨.object ?_, .cls _, .object, rfl, rfl⟩
      rw [hinstance]
      exact hobject
  | start hobject hstart hsame =>
      cases hstart
      refine ⟨.start ?_ ?_ ?_, huse.built, huse.raw⟩
      · rw [hinstance]
        exact hobject
      · rw [hinstance]
        rfl
      · rw [hinstance]
        exact hsame
  | walk hobject hstart hne hnearest =>
      cases hstart
      obtain ⟨u, hnearest', hu, rfl⟩ := nearest_related
        (fun _ _ => viewStep_subst hedges hplain hraw σ target) ⟨huse, rfl⟩ hnearest
      refine ⟨.walk ?_ ?_ ?_ hnearest', hu.built, hu.raw⟩
      · rw [hinstance]
        exact hobject
      · rw [hinstance]
        rfl
      · rw [hinstance]
        exact hne

/-! ## Checks -/

def isInScope (env : Env) (c : ClassRef) (v : TyVar) : Bool :=
  ((env.carried (env.classes.genericForm c)).get? v).isSome

def supplies (env : Env) (t : Ty) : Bool :=
  (env.carriedPairs (env.classes.genericForm (env.erase t))).all fun pair =>
    ((env.carried t).get? pair.1).isSome

/-- Whether the declared edges are scoped, whatever kind the handles carry. -/
def hasScopedEdges (env : Env) : Bool :=
  env.classes.decls.toList.all fun entry =>
    entry.2.supertypes.all fun e =>
      (env.isRawUse e || env.supplies e) &&
        [ClassKind.ordinary, .interface, .primitive].all fun kind =>
          e.isWritten (fun _ => true) (env.isInScope (.named entry.1 kind))

theorem supplies_of_check (h : env.supplies t = true) : env.Supplies t := by
  intro v hv
  rw [InScope, get?_carried] at hv
  obtain ⟨u, hu⟩ := Option.isSome_iff_exists.mp hv
  obtain ⟨w, hmem, hw⟩ := Substitution.mem_of_get? hu
  rw [← Substitution.get?_of_beq _ hw]
  exact List.all_eq_true.mp h _ hmem

theorem scopedEdges_of_check (h : env.hasScopedEdges = true)
    (hbuilt : ∀ entry ∈ env.classes.decls.toList, ∀ e ∈ entry.2.supertypes, e.Built) :
    env.ScopedEdges := by
  have hentry : ∀ c, c.isArray = false → ∀ e ∈ env.classes.directSupertypes c,
      (env.isRawUse e || env.supplies e) = true ∧
        e.isWritten (fun _ => true) (env.isInScope c) = true := by
    intro c hc e he
    obtain ⟨name, kind, rfl⟩ := ClassRef.exists_named hc
    rw [Registry.directSupertypes_named] at he
    cases hd : env.classes.decls[name]? with
    | none => simp [hd] at he
    | some d =>
        have hmem := Std.TreeMap.mem_toList_iff_getElem?_eq_some.mpr hd
        have hedges := List.all_eq_true.mp (List.all_eq_true.mp h (name, d) hmem) e
          (by simpa [hd] using he)
        rw [Bool.and_eq_true] at hedges
        refine ⟨hedges.1, List.all_eq_true.mp hedges.2 kind ?_⟩
        cases kind <;> simp
  refine ⟨?_, ?_, fun c hc => Registry.forall_edges hbuilt hc⟩
  · intro c hc e he v hv
    obtain ⟨w, hw, hwv⟩ := Ty.isVar_of_occurs hv (Ty.written_of_isWritten (hentry c hc e he).2)
    rw [InScope, ← Substitution.get?_of_beq _ hwv]
    exact hw
  · intro c hc e he hraw
    have hsupplies := (hentry c hc e he).1
    rw [hraw, Bool.false_or] at hsupplies
    exact supplies_of_check hsupplies

/-- Where no edge is raw, nothing is used raw. -/
theorem scopedRaw_of_noRaw
    (h : ∀ entry ∈ env.classes.decls.toList, ∀ e ∈ entry.2.supertypes, env.isRawUse e = false) :
    env.ScopedRaw := by
  intro c hc
  exfalso
  induction hc with
  | edge hc he hraw =>
      rw [Registry.forall_edges h hc _ he] at hraw
      cases hraw
  | above _ _ _ ih => exact ih

end Env

end Generics
