import Generics.Proofs.Shapes
import Generics.Proofs.Uses

/-!
Instances of generic forms on the way up. Where all edges are instances, and mention
nothing out of scope that is replaced, the steps from an instance with types put in
are its own steps with the same types put in. So its views are the views of the form.
-/

namespace Generics

namespace Env

open Ty (Occurs)

variable {env : Env} {t v : Ty} {target : ClassRef} {σ : Substitution}

/-- Each edge is an instance of a generic form. -/
def InstanceEdges (env : Env) : Prop :=
  ∀ c, c.isArray = false → ∀ e ∈ env.classes.directSupertypes c, ∃ d, env.classes.IsInstance d e

/-- What an edge mentions beyond the scope of its class is not replaced. -/
def KeepsForeign (env : Env) (σ : Substitution) : Prop :=
  ∀ c, c.isArray = false → ∀ e ∈ env.classes.directSupertypes c, ∀ v, Occurs v e →
    env.InScope c v ∨ σ.get? v = none

theorem keepsForeign_of_scoped (h : env.ScopedEdges) (σ : Substitution) : env.KeepsForeign σ :=
  fun c hc e he v hv => Or.inl (h.scope c hc e he v hv)

/-- An instance of the generic form of a class that is no array. -/
def Instance (env : Env) (t : Ty) : Prop := ∃ c, c.isArray = false ∧ env.classes.IsInstance c t

theorem Instance.raw (ht : env.Instance t) :
    ∃ c, t.raw? = some c ∧ c.isArray = false ∧ env.classes.IsInstance c t := by
  obtain ⟨c, hc, ht⟩ := ht
  exact ⟨c, Vocabulary.raw?_of_isInstance ht hc, hc, ht⟩

theorem Instance.viewStart (ht : env.Instance t) : env.viewStart t = some t := by
  obtain ⟨c, hc, ht⟩ := ht
  rcases ht.cases hc with ⟨hform, rfl⟩ | ⟨owner, args, rfl, -⟩
  · simp only [Env.viewStart, hc, Bool.false_eq_true, if_false, hform]
  · rfl

theorem Instance.subst (ht : env.Instance t) (hσ : σ.Writable) : env.Instance (t.subst σ) := by
  obtain ⟨c, hc, ht⟩ := ht
  exact ⟨c, hc, ht.subst hσ⟩

/-- An instance supplies what is in the scope of its class. -/
theorem Instance.supplies (ht : env.Instance t) : env.Supplies t := by
  obtain ⟨c, hraw, hc, σ, hσ, rfl⟩ := ht.raw
  have hform : (env.classes.genericForm c).raw? = some c := raw?_genericForm hc
  refine Supplies.subst ?_ σ (erase_subst hform σ)
  intro v hv
  rwa [erase_of_raw? hform] at hv

/-- A shaped type carries what it carries with types put in, and nothing more. -/
theorem carriedPairs_subst_shaped (ht : env.Shaped t) (σ : Substitution) :
    env.carriedPairs (t.subst σ) =
      (env.carriedPairs t).map fun pair => (pair.1, pair.2.subst σ) := by
  have hzip : ∀ (raw : ClassRef) (args : List Ty),
      (env.classes.parameters raw).zip (args.map (Ty.subst σ)) =
        ((env.classes.parameters raw).zip args).map fun pair => (pair.1, pair.2.subst σ) := by
    intro raw args
    rw [List.zip_map_right]
    rfl
  induction ht with
  | cls c => rfl
  | bare hargs =>
      rw [Ty.subst_param]
      exact hzip _ _
  | @owned owner raw args howner hargs ih =>
      rw [Ty.subst_param]
      simp only [Option.map_some, carriedPairs, hzip, ih, List.map_append]
  | array h hne _ =>
      rw [Ty.subst_array, ((Shaped.subst h σ).2 hne).2]
      rfl

theorem get?_carried_shaped (ht : env.Shaped t) (σ : Substitution) (v : TyVar) :
    (env.carried (t.subst σ)).get? v = ((env.carried t).get? v).map (Ty.subst σ) := by
  rw [get?_carried, get?_carried, carriedPairs_subst_shaped ht]
  exact Substitution.get?_map ⟨env.carriedPairs t⟩ (Ty.subst σ) v

/-- A type on the way up, and the same type with types put in. -/
def Replaced (env : Env) (σ : Substitution) (s t : Ty) : Prop := env.Instance s ∧ t = s.subst σ

section

variable (hplain : env.classes.PlainEdges) (hedges : env.InstanceEdges)

include hedges

theorem instantiated_of_instance (ht : env.Instance t) {e : Ty}
    (he : e ∈ env.classes.directSupertypes (env.erase t)) :
    e.Writable ∧ env.instantiated t e = e.subst (env.carried t) := by
  obtain ⟨c, hraw, hc, hinstance⟩ := ht.raw
  rw [erase_of_raw? hraw] at he
  obtain ⟨d, hd⟩ := hedges c hc e he
  refine ⟨writable_of_isInstance hd, ?_⟩
  rw [instantiated, isRawUse_of_isInstance hinstance hc]
  rfl

/-- The steps from an instance with types put in are its steps with these put in. -/
theorem Instance.instantiated_subst (ht : env.Instance t) (hσ : σ.Writable)
    (hforeign : env.KeepsForeign σ) {e : Ty}
    (he : e ∈ env.classes.directSupertypes (env.erase t)) :
    env.instantiated (t.subst σ) e = (env.instantiated t e).subst σ := by
  obtain ⟨c, hraw, hc, hinstance⟩ := ht.raw
  have hshaped := shaped_of_isInstance hinstance
  obtain ⟨hwritable, hhere⟩ := instantiated_of_instance hedges ht he
  have hthere := (instantiated_of_instance hedges (ht.subst hσ)
    (by rwa [erase_subst hraw])).2
  rw [hhere, hthere]
  rw [erase_of_raw? hraw] at he
  refine (Ty.subst_subst hwritable
    (fun v _ => carried_writable (writable_of_isInstance hinstance) v) fun v hv => ?_).symm
  rw [Ty.subst_var, Ty.subst_var, get?_carried_shaped hshaped]
  cases hget : (env.carried t).get? v with
  | some u => rfl
  | none =>
      -- what is not supplied is out of scope
      rcases hforeign c hc e he v hv with hscope | hfree
      · have herase : env.erase t = c := erase_of_raw? hraw
        rw [← herase] at hscope
        have hsupplied := ht.supplies v hscope
        rw [hget] at hsupplied
        cases hsupplied
      · simp only [Option.getD_none, Option.map_none, Ty.subst_var, hfree]

include hplain

theorem Instance.step (ht : env.Instance t) {e : Ty}
    (he : e ∈ env.classes.directSupertypes (env.erase t)) : env.Instance (env.instantiated t e) := by
  obtain ⟨c, hraw, hc, hinstance⟩ := ht.raw
  rw [(instantiated_of_instance hedges ht he).2]
  rw [erase_of_raw? hraw] at he
  obtain ⟨d, hd⟩ := hedges c hc e he
  obtain ⟨d', hd', hplain', -⟩ := raw?_edge hplain he
  obtain rfl := raw_of_isInstance hd hd'
  exact ⟨d, (ClassRef.isPlain_iff.mp hplain').1,
    hd.subst (carried_isWritable (writable_of_isInstance hinstance))⟩

theorem viewStep_instance (hσ : σ.Writable) (hforeign : env.KeepsForeign σ) {s t : Ty}
    (h : env.Replaced σ s t) :
    (env.viewStep target s).Related (env.Replaced σ) (env.Replaced σ) (env.viewStep target t) := by
  obtain ⟨hs, rfl⟩ := h
  obtain ⟨c, hraw, -⟩ := hs.raw
  apply viewStep_related
  apply instantiatedEdges_related (by rw [erase_subst hraw])
  intro e he
  exact ⟨hs.step hplain hedges he, hs.instantiated_subst hedges hσ hforeign he⟩

/-- The views of an instance with types put in are the views of the instance with
the same types put in. -/
theorem view_instance_iff (hσ : σ.Writable) (hforeign : env.KeepsForeign σ) (ht : env.Instance t) :
    env.View (t.subst σ) target v ↔
      ∃ shape, env.View t target shape ∧ v = shape.subst σ := by
  have hstart := ht.viewStart
  have hstart' := (ht.subst hσ).viewStart
  obtain ⟨c, hraw, -⟩ := ht.raw
  have herase : env.erase (t.subst σ) = env.erase t := erase_subst hraw σ
  have hprimitive : (t.subst σ).isPrimitive = t.isPrimitive := by
    cases t with
    | cls _ => rfl
    | param _ _ _ =>
        rw [Ty.subst_param]
        rfl
    | _ => cases hraw
  constructor
  · intro h
    cases h with
    | object h => exact ⟨.object, .object (by rwa [← hprimitive]), rfl⟩
    | start hobject hs hsame =>
        obtain rfl := Option.some.inj (hstart'.symm.trans hs)
        rw [herase] at hsame
        rw [hprimitive] at hobject
        exact ⟨t, .start hobject hstart hsame, rfl⟩
    | walk hobject hs hne hnearest =>
        obtain rfl := Option.some.inj (hstart'.symm.trans hs)
        rw [herase] at hne
        rw [hprimitive] at hobject
        obtain ⟨shape, hshape, -, rfl⟩ := nearest_related
          (fun _ _ h => (viewStep_instance hplain hedges hσ hforeign h).flip) ⟨ht, rfl⟩ hnearest
        exact ⟨shape, .walk hobject hstart hne hshape, rfl⟩
  · rintro ⟨shape, h, rfl⟩
    cases h with
    | object h => exact .object (by rwa [hprimitive])
    | start hobject hs hsame =>
        obtain rfl := Option.some.inj (hstart.symm.trans hs)
        exact .start (by rwa [hprimitive]) hstart' (by rwa [herase])
    | walk hobject hs hne hnearest =>
        obtain rfl := Option.some.inj (hstart.symm.trans hs)
        obtain ⟨_, hview, -, rfl⟩ := nearest_related
          (fun _ _ => viewStep_instance hplain hedges hσ hforeign) ⟨ht, rfl⟩ hnearest
        exact .walk (by rwa [hprimitive]) hstart' (by rwa [herase]) hview

theorem view_writable (ht : env.Instance t) (h : env.View t target v) : v.Writable := by
  have writable {t : Ty} (ht : env.Instance t) : t.Writable := by
    obtain ⟨c, -, ht⟩ := ht
    exact writable_of_isInstance ht
  cases h with
  | object _ => exact .cls trivial
  | start _ hs _ =>
      obtain rfl := Option.some.inj (ht.viewStart.symm.trans hs)
      exact writable ht
  | walk _ hs _ hnearest =>
      obtain rfl := Option.some.inj (ht.viewStart.symm.trans hs)
      obtain ⟨n, hfirst, -⟩ := hnearest
      obtain ⟨hclimb, -⟩ := climb_of_firstAt hplain hfirst
      exact writable (hclimb.preserves (fun _ ht _ => ht.step hplain hedges) ht)

end

end Env

end Generics
