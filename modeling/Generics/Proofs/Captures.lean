import Generics.Proofs.Composition
import Generics.Proofs.Covariant
import Generics.Proofs.Resolvers
import Generics.Token.Navigation

/-!
Capturing in a context. What a class passes to a base class may mention parameters
of the class in which it was written. The context is a type of that class, or of a
class below it, and its covariant bindings are put in. They are collected on a
visit through all edges above the context, and what the context gives for the
parameters is found on a walk along some of these edges. Where the ways up agree,
both meet.
-/

namespace Generics

namespace Env

open Ty (Same Occurs)

variable {env : Env} {t u x : Ty} {c d target : ClassRef} {v p : TyVar} {σ : Substitution}

/-- A type from which all edges lead to instances of generic forms without owners, mention
parameters of their own classes only, and agree where they lead to one class. -/
structure Context (env : Env) (t : Ty) : Prop where
  form : env.Instance t
  ownerless : t.Ownerless
  edges : ∀ n x, env.Climb n t x → ∀ e ∈ env.classes.directSupertypes (env.erase x),
    (∃ d, env.classes.IsInstance d e) ∧ e.Ownerless ∧
      ∀ v, Occurs v e → ∃ p ∈ env.classes.parameters (env.erase x), (p == v) = true
  coherent : env.Coherent t

/-- What is known of a type that is met from a context. -/
structure Above (env : Env) (t x : Ty) : Prop where
  climb : ∃ n, env.Climb n t x
  form : ∃ d, env.classes.IsInstance d x
  ownerless : x.Ownerless

/-! ## Instances -/

theorem exists_raw?_of_shaped (h : env.Shaped x) (harray : (env.erase x).isArray = false) :
    x.raw? = some (env.erase x) := by
  cases h with
  | cls _ => rfl
  | bare _ => rfl
  | owned _ _ => rfl
  | array _ _ => cases harray

theorem isArray_erase_subst (h : env.Shaped t) (σ : Substitution) :
    (env.erase (t.subst σ)).isArray = (env.erase t).isArray := by
  cases h with
  | cls _ => rfl
  | bare _ =>
      rw [Ty.subst_param]
      rfl
  | owned _ _ =>
      rw [Ty.subst_param]
      rfl
  | array h hne =>
      rw [Ty.subst_array, ((h.subst σ).2 hne).2]
      rfl

/-- A parameterized instance has for each parameter what was put in for it. -/
theorem args_of_isInstance {owner : Option Ty} {raw : ClassRef} {args : List Ty}
    (h : env.classes.IsInstance d (.param owner raw args)) :
    ∃ σ, args = (env.classes.parameters raw).map fun p => (Ty.var p).subst σ := by
  obtain rfl := raw_of_isInstance h rfl
  obtain ⟨σ, -, heq⟩ := h
  refine ⟨σ, ?_⟩
  cases d with
  | named name kind =>
      rcases Registry.formWithin_raw env.classes (env.classes.formSteps env.classes.size)
        (c := .named name kind) rfl with hform | ⟨owner, hform⟩
      · rw [show env.classes.genericForm (.named name kind) = _ from hform] at heq
        cases heq
      · rw [show env.classes.genericForm (.named name kind) = _ from hform, Ty.subst_param,
          List.map_map] at heq
        exact (Ty.param.inj heq).2.2
  | array name component =>
      rcases Registry.formWithin_array env.classes (env.classes.formSteps env.classes.size) name
        component with ⟨-, hform⟩ | ⟨hne, hform⟩
      · rw [show env.classes.genericForm (.array name component) = _ from hform] at heq
        cases heq
      · rw [show env.classes.genericForm (.array name component) = _ from hform, Ty.subst_array,
          (Registry.arrayOf_formWithin env.classes _ component σ).resolve_left hne] at heq
        cases heq

theorem same_argument_of_isInstance {owner : Option Ty} {raw : ClassRef} {args : List Ty}
    (h : env.classes.IsInstance d (.param owner raw args)) {pair pair' : TyVar × Ty}
    (hpair : pair ∈ (env.classes.parameters raw).zip args)
    (hpair' : pair' ∈ (env.classes.parameters raw).zip args) (hpq : (pair.1 == pair'.1) = true) :
    Same pair.2 pair'.2 := by
  obtain ⟨σ, rfl⟩ := args_of_isInstance h
  rw [← List.map_prod_left_eq_zip] at hpair hpair'
  obtain ⟨p, -, rfl⟩ := List.mem_map.mp hpair
  obtain ⟨q, -, rfl⟩ := List.mem_map.mp hpair'
  exact Ty.same_image_of_beq σ hpq

/-! ## What is met from a context -/

namespace Context

variable (h : env.Context t)

include h

/-- A step from what is met puts in what is carried. -/
theorem step (hx : env.Above t x) (hc : x.raw? = some c) {e : Ty}
    (he : e ∈ env.classes.directSupertypes c) :
    env.instantiated x e = e.subst (env.carried x) ∧ env.Above t (e.subst (env.carried x)) := by
  obtain ⟨⟨n, hclimb⟩, ⟨d, hinstance⟩, -⟩ := hx
  obtain rfl := raw_of_isInstance hinstance hc
  have herase : env.erase x = d := erase_of_raw? hc
  rw [← herase] at he
  have hstep : env.instantiated x e = e.subst (env.carried x) := by
    cases harray : d.isArray with
    | false =>
        rw [instantiated, isRawUse_of_isInstance hinstance harray]
        rfl
    | true =>
        obtain ⟨htops, htop⟩ := array_step (herase.symm ▸ harray)
        rw [htops] at he
        obtain ⟨top, -, rfl⟩ := List.mem_map.mp he
        exact htop top
  obtain ⟨⟨d', hinstance'⟩, hownerless, -⟩ := h.edges n x hclimb e he
  refine ⟨hstep, ⟨n + 1, hstep ▸ hclimb.trans ⟨e, he, rfl⟩⟩, ⟨d', ?_⟩, ?_⟩
  · exact hinstance'.subst (carried_isWritable (writable_of_isInstance hinstance))
  · exact (shaped_of_isInstance hinstance').ownerless_subst hownerless _

theorem above (hx : env.Met t x) : env.Above t x := by
  induction hx with
  | start =>
      obtain ⟨d, -, hd⟩ := h.form
      exact ⟨⟨0, rfl⟩, ⟨d, hd⟩, h.ownerless⟩
  | edge _ hc he ih => exact (h.step ih hc he).2
  | owner _ ih => cases ih.ownerless

/-- Equal paths give each parameter one value. -/
theorem orderly (hapart : env.classes.ApartParameters) : env.Orderly t where
  shaped x hx := by
    obtain ⟨d, hd⟩ := (h.above hx).form
    exact shaped_of_isInstance hd
  writable x hx := by
    obtain ⟨d, hd⟩ := (h.above hx).form
    exact writable_of_isInstance hd
  edge x c hx hc e he := by
    obtain ⟨n, hclimb⟩ := (h.above hx).climb
    rw [← show env.erase x = c from erase_of_raw? hc] at he ⊢
    obtain ⟨⟨d, hd⟩, -, hown⟩ := h.edges n x hclimb e he
    exact ⟨shaped_of_isInstance hd, writable_of_isInstance hd, hown⟩
  parallel owner raw args hx pair hpair pair' hpair' hpq := by
    obtain ⟨d, hd⟩ := (h.above hx).form
    exact same_argument_of_isInstance hd hpair hpair' hpq
  apart := hapart
  once x y c d hx hy hc hd hname := by
    obtain ⟨m, hxclimb⟩ := (h.above hx).climb
    obtain ⟨n, hyclimb⟩ := (h.above hy).climb
    apply h.coherent m n x y hxclimb hyclimb
    rw [erase_of_raw? hc, erase_of_raw? hd]
    exact ClassRef.beq_iff_name.mpr hname

/-! ## The walk -/

omit h in
/-- The walk looks at an array class only for one of the three classes above all arrays. -/
theorem viewStep_array (htarget : target.isArray = false) {e : Ty} (he : env.Shaped e)
    (hsub : env.isSubclass (env.erase e) target = true) (hne : (env.erase e == target) = false)
    (harray : (env.erase (e.subst σ)).isArray = true) :
    ∃ u, env.viewStep target (e.subst σ) = .goal u := by
  have hname : (env.erase e).name ≠ target.name := fun hname => by
    rw [ClassRef.beq_iff_name.mpr hname] at hne
    cases hne
  have hearray : (env.erase e).isArray = true := isArray_erase_subst he σ ▸ harray
  obtain ⟨top, htop, htopName⟩ := exists_arrayTop hearray htarget hname hsub
  have hplain := ClassRef.isPlain_iff.mpr ⟨htarget, (isPrimitive_of_isSubclass hsub hname).2⟩
  rw [← viewStep_congr (arrayTop_isPlain htop) hplain htopName]
  exact viewStep_arrayTop harray htop

/-- What the walk finds for a parameterized supertype is on the way up. -/
theorem way_of_supertype {owner : Option Ty} {raw : ClassRef} {args : List Ty}
    (hview : env.supertype t target = .ok (.param owner raw args)) :
    env.Way t (.param owner raw args) ∧ raw.name = target.name := by
  obtain ⟨c, hraw, hc, -⟩ := h.form.raw
  obtain ⟨htarget, -, hfound⟩ := viewAs_of_supertype hraw hc hview
  have hstart : env.viewStart t = some t := h.form.viewStart
  unfold viewAs at hfound
  split at hfound
  · cases hfound
  simp only [hstart] at hfound
  split at hfound
  · rename_i hself
    cases hfound
    exact ⟨.refl _, ClassRef.beq_iff_name.mp hself⟩
  -- the nodes of the walk are on the way up, and an array among them leads to the target at once
  let OnWay (x : Ty) : Prop := env.Met t x ∧ (∀ u, env.Way x u → env.Way t u) ∧
    ((env.erase x).isArray = true → ∃ u, env.viewStep target x = .goal u)
  have hnodes : ∀ x, OnWay x → ∀ x' ∈ (env.viewStep target x).nodes, OnWay x' := by
    rintro x ⟨hx, hway, hgoal⟩ x' hx'
    have hnone : ¬∃ u, env.viewStep target x = .goal u := by
      rintro ⟨u, hu⟩
      rw [hu] at hx'
      cases hx'
    obtain ⟨e, he, rfl, hsub⟩ := viewStep_nodes hx'
    have harray : (env.erase x).isArray = false := Bool.eq_false_iff.mpr fun h => hnone (hgoal h)
    have habove := h.above hx
    obtain ⟨d, hd⟩ := habove.form
    have hrawX := exists_raw?_of_shaped (shaped_of_isInstance hd) harray
    obtain ⟨n, hclimb⟩ := habove.climb
    obtain ⟨⟨d', he'⟩, -⟩ := h.edges n x hclimb e he
    rw [(h.step habove hrawX he).1]
    refine ⟨.edge hx hrawX he, fun u hu => hway u (.edge hrawX harray he hu), ?_⟩
    exact viewStep_array htarget (shaped_of_isInstance he') hsub
      (Bool.eq_false_iff.mpr fun heq => hnone (viewStep_reaches he hsub heq))
  have hfirst : OnWay t := by
    refine ⟨.start, fun _ hway => hway, fun harray => ?_⟩
    rw [erase_of_raw? hraw, hc] at harray
    cases harray
  obtain ⟨x, ⟨hx, hway, -⟩, hgoal⟩ := goal_of_search hnodes hfirst hfound
  obtain ⟨e, he, heq, htop⟩ := viewStep_goal hgoal
  cases harray : (env.erase x).isArray with
  | true =>
      obtain ⟨htops, hbare⟩ := array_step harray
      rw [htops] at he
      obtain ⟨top, -, rfl⟩ := List.mem_map.mp he
      rw [hbare] at heq
      cases heq
  | false =>
      have habove := h.above hx
      obtain ⟨d, hd⟩ := habove.form
      have hrawX := exists_raw?_of_shaped (shaped_of_isInstance hd) harray
      obtain ⟨n, hclimb⟩ := habove.climb
      obtain ⟨⟨d', he'⟩, -⟩ := h.edges n x hclimb e he
      rw [(h.step habove hrawX he).1] at heq
      have hrawE : e.raw? = some raw := by
        rw [← (shaped_of_isInstance he').raw?_subst (env.carried x), ← heq]
        rfl
      rw [erase_of_raw? hrawE, ClassRef.beq_iff_name] at htop
      exact ⟨hway _ (.edge hrawX harray he (heq ▸ .refl _)), htop⟩

end Context

/-! ## Capturing -/

/-- Whatever the edges are, an argument is one of a form or has been put in on a step, which
builds arrays anew. -/
theorem formed_capturedArgument
    (hedges : ∀ c, ∀ e ∈ env.classes.directSupertypes c, e.Writable) {sub base : ClassRef}
    (h : env.capturedArgument sub base = .ok u) : u.Formed fun _ => True := by
  have hview : ∀ {w : Ty}, env.viewAs (.cls sub) base = .found w → w.Formed fun _ => True := by
    intro w hw
    have hstart : ∀ r, env.viewStart (.cls sub) = some r → r.Formed fun _ => True := by
      intro r hr
      cases hr
      split
      · exact .cls trivial
      · exact Registry.formed_genericForm (fun _ _ _ => trivial) ClassRef.family_all trivial
    have hstep : ∀ s, s.Formed (fun _ => True) →
        ∀ e ∈ env.classes.directSupertypes (env.erase s),
          (env.instantiated s e).Formed fun _ => True := by
      intro s hs e he
      unfold instantiated
      split
      · exact .cls trivial
      · exact Ty.formed_subst ClassRef.family_all (hedges _ e he) (formed_carried hs)
    rcases viewAs_preserves hstart hstep hw with rfl | hformed
    · exact .cls trivial
    · exact hformed
  unfold capturedArgument at h
  cases hfound : env.viewAs (.cls sub) base with
  | found w =>
      rw [hfound] at h
      cases w with
      | param owner raw args =>
          cases args with
          | nil => cases h
          | cons arg args =>
              cases h
              cases hview hfound with
              | param _ _ hargs => exact hargs u List.mem_cons_self
      | _ => cases h
  | missing =>
      rw [hfound] at h
      cases h
  | outOfSteps =>
      rw [hfound] at h
      cases h

/-- Bindings that give the parameters what a supertype has replace them by that. -/
theorem same_subst_of_gives {raw : ClassRef} {args : List Ty}
    (hlength : args.length = (env.classes.parameters raw).length)
    (hargs : ∀ a ∈ args, a.Writable)
    (hgives : ∀ pair ∈ (env.classes.parameters raw).zip args, Gives σ pair.1 pair.2)
    (hu : u.Writable) (hown : ∀ v, Occurs v u → ∃ p ∈ env.classes.parameters raw, (p == v) = true) :
    Same (u.subst σ) (u.subst ⟨(env.classes.parameters raw).zip args⟩) ∧ (u.subst σ).Writable := by
  have himage : ∀ v, Occurs v u → ∃ b ∈ args, Same ((Ty.var v).subst σ) b ∧
      (Ty.var v).subst ⟨(env.classes.parameters raw).zip args⟩ = b := by
    intro v hv
    obtain ⟨p, hp, hpv⟩ := hown v hv
    obtain ⟨a, ha⟩ := exists_zip hlength hp
    obtain ⟨b, hb⟩ := Substitution.exists_get? ha hpv
    obtain ⟨q, hmem, hqv⟩ := Substitution.mem_of_get? hb
    refine ⟨b, (List.of_mem_zip hmem).2, ?_, by rw [Ty.subst_var, hb]; rfl⟩
    have hgiven := hgives _ hmem
    unfold Gives at hgiven
    rw [Substitution.get?_of_beq σ hqv] at hgiven
    rw [Ty.subst_var]
    cases hget : σ.get? v with
    | some a' =>
        rw [hget] at hgiven
        exact hgiven
    | none =>
        rw [hget] at hgiven
        cases b with
        | var w => exact Ty.same_var.mpr ⟨w, rfl, BEq.symm (BEq.trans hgiven hqv)⟩
        | _ => cases hgiven
  have hwritable : ∀ v, Occurs v u → ((Ty.var v).subst σ).Writable := by
    intro v hv
    obtain ⟨b, hb, hsame, -⟩ := himage v hv
    exact Ty.writable_of_same (hargs b hb) hsame
  refine ⟨Ty.same_subst hu hwritable fun v hv => ?_, Ty.writable_subst hu hwritable⟩
  obtain ⟨b, -, hsame, heq⟩ := himage v hv
  rw [heq]
  exact hsame

end Env

namespace Token

open Ty (Same Occurs)

/-- A capture succeeds if the captured type, resolved in the context, is not a bare variable. -/
theorem captureIn_iff {env : Env} {sub base : ClassRef} {context c : Ty} {token : Token}
    (hcaptured : env.capturedArgument sub base = .ok c) :
    captureIn env sub base context = .ok token ↔
      token = ⟨(env.covariantly context).resolve c, env.covariantly context⟩ ∧
        ∀ v, (env.covariantly context).resolve c ≠ .var v := by
  rw [captureIn, hcaptured]
  simp only [bind, Except.bind]
  cases (env.covariantly context).resolve c with
  | var v =>
      constructor
      · rintro ⟨⟩
      · rintro ⟨-, hne⟩
        exact absurd rfl (hne v)
  | _ =>
      constructor
      · rintro ⟨⟩
        exact ⟨rfl, fun v h => by cases h⟩
      · rintro ⟨rfl, -⟩
        rfl

/-- In a context whose ways up agree, what is captured is replaced by what the context gives
for the parameters of the class in which it is written, and it is captured unless this is a
bare variable. -/
theorem captureIn_context {env : Env} {context : Ty} (hcontext : env.Context context)
    (hapart : env.classes.ApartParameters)
    (hacyclic : ∀ c n, c.isArray = false → ¬env.RawPath (n + 1) c c)
    (hquiet : (env.covariantVisit context).guard.refusals = 0)
    (hedges : ∀ c, ∀ e ∈ env.classes.directSupertypes c, e.Writable)
    {sub base written : ClassRef} {c : Ty} (hcaptured : env.capturedArgument sub base = .ok c)
    (hown : ∀ v, Occurs v c → ∃ p ∈ env.classes.parameters written, (p == v) = true)
    {owner : Option Ty} {raw : ClassRef} {args : List Ty}
    (hview : env.supertype context written = .ok (.param owner raw args)) :
    (∀ token, captureIn env sub base context = .ok token →
      Same token.type (c.subst ⟨(env.classes.parameters written).zip args⟩)) ∧
    ((∃ token, captureIn env sub base context = .ok token) ↔
      ∀ v, c.subst ⟨(env.classes.parameters written).zip args⟩ ≠ .var v) := by
  obtain ⟨hway, hname⟩ := hcontext.way_of_supertype hview
  have horderly := hcontext.orderly hapart
  have hmet := hway.met .start
  have hformed := Env.formed_capturedArgument hedges hcaptured
  rw [← Registry.parameters_of_name hname] at hown ⊢
  have hargs : args.length = (env.classes.parameters raw).length ∧ ∀ a ∈ args, a.Writable := by
    constructor
    · cases horderly.shaped _ hmet with
      | bare hlength => exact hlength
      | owned _ hlength => exact hlength
    · cases horderly.writable _ hmet with
      | param _ _ hargs => exact hargs
  obtain ⟨hsame, hwritable⟩ := Env.same_subst_of_gives hargs.1 hargs.2
    (fun _ hpair => horderly.gives hacyclic hquiet hway hpair) hformed.writable hown
  rw [← Ty.resolve_eq_subst hformed] at hsame hwritable
  simp only [captureIn_iff hcaptured]
  refine ⟨fun token htoken => htoken.1 ▸ hsame, ?_⟩
  have hvar : (∀ v, (env.covariantly context).resolve c ≠ .var v) ↔
      ∀ v, c.subst ⟨(env.classes.parameters raw).zip args⟩ ≠ .var v := by
    constructor
    · intro h v hv
      rw [hv] at hsame
      obtain ⟨w, hw, -⟩ := Ty.same_var.mp (Ty.same_symm hwritable hsame)
      exact h w hw
    · intro h v hv
      rw [hv] at hsame
      obtain ⟨w, hw, -⟩ := Ty.same_var.mp hsame
      exact h w hw
  rw [← hvar]
  exact ⟨fun ⟨_, htoken⟩ => htoken.2, fun h => ⟨_, rfl, h⟩⟩

/-! ## Names in a holder -/

def holderClass : ClassRef := .named "Holder" .ordinary

def namesClass : ClassRef := .named "Names" .ordinary

def heldClass : ClassRef := .named "Held" .ordinary

def holderVar : TyVar := ⟨1, .ofClass holderClass, "T"⟩

def holderOf (t : Ty) : Ty := .param none holderClass [t]

/-- A holder of names, and a class written in the holder that captures its type. -/
def holderEnv : Env :=
  ⟨[(ClassDecl.of Env.baseClass).withParameters [Env.baseVar],
    (ClassDecl.of holderClass).withParameters [holderVar],
    (ClassDecl.of heldClass).extending (.param none Env.baseClass [holderOf (.var holderVar)]),
    (ClassDecl.of namesClass).extending (holderOf Env.textType)].foldl Registry.register .core,
    .empty⟩

theorem holderEnv_edges : holderEnv.classes.decls.toList.flatMap (fun entry => entry.2.supertypes) =
    [.object, .param none Env.baseClass [holderOf (.var holderVar)], .object,
      holderOf Env.textType] := rfl

theorem holderEnv_writable (c : ClassRef) :
    ∀ e ∈ holderEnv.classes.directSupertypes c, e.Writable := by
  have hformed : holderEnv.classes.Formed fun _ => True := by
    have hholder : ∀ {t : Ty}, (t.Formed fun _ => True) → (holderOf t).Formed fun _ => True :=
      fun ht => .param nofun trivial (List.forall_mem_singleton.mpr ht)
    refine Registry.formed_of_supertypes (Registry.forall_supertypes holderEnv_edges ?_)
    simp only [List.forall_mem_cons]
    exact ⟨.cls trivial,
      .param nofun trivial (List.forall_mem_singleton.mpr (hholder (.var holderVar))),
      .cls trivial, hholder (.cls trivial), List.forall_mem_nil _⟩
  exact fun e he => (hformed.edge ClassRef.family_all he).writable

theorem holderEnv_acyclic (c : ClassRef) (n : Nat) (hc : c.isArray = false) :
    ¬holderEnv.RawPath (n + 1) c c := by
  intro hpath
  have hplain : holderEnv.classes.PlainEdges := by
    refine Registry.forall_supertypes holderEnv_edges ?_
    simp only [List.forall_mem_cons]
    exact ⟨rfl, rfl, rfl, rfl, List.forall_mem_nil _⟩
  let rank (name : String) : Nat :=
    if name == ClassRef.rootName then 0 else if name == "Names" || name == "Held" then 2 else 1
  have hrank : ∀ entry ∈ holderEnv.classes.decls.toList, ∀ e ∈ entry.2.supertypes,
      rank (holderEnv.erase e).name < rank entry.1 := by decide
  have hdown := Env.rank_of_rawPath hplain hrank hc hpath
  omega

/-- All that is above a class of names. -/
def namesAbove : List Ty := [.cls namesClass, holderOf Env.textType, .object]

theorem namesAbove_step (t : Ty) (ht : t ∈ namesAbove) :
    ∀ e ∈ holderEnv.classes.directSupertypes (holderEnv.erase t),
      holderEnv.instantiated t e ∈ namesAbove ∧ (∃ d, holderEnv.classes.IsInstance d e) ∧
        e.Ownerless ∧ ∀ v, ¬Occurs v e := by
  simp only [namesAbove, List.mem_cons, List.not_mem_nil, or_false] at ht
  rcases ht with rfl | rfl | rfl
  · intro e he
    obtain rfl := List.mem_singleton.mp (show e ∈ [holderOf Env.textType] from he)
    have hinstance : holderEnv.classes.IsInstance holderClass (holderOf Env.textType) := by
      refine ⟨⟨[(holderVar, Env.textType)]⟩, ?_, rfl⟩
      intro w t hget
      obtain ⟨_, hmem, -⟩ := Substitution.mem_of_get? hget
      rw [(Prod.mk.inj (List.mem_singleton.mp hmem)).2]
      exact .cls trivial
    refine ⟨List.mem_cons_of_mem _ List.mem_cons_self, ⟨_, hinstance⟩, rfl, fun v hv => ?_⟩
    cases hv with
    | arg hmem hv =>
        obtain rfl := List.mem_singleton.mp hmem
        cases hv
  · intro e he
    obtain rfl := List.mem_singleton.mp (show e ∈ [Ty.object] from he)
    have hroot : Ty.object ∈ namesAbove := by simp [namesAbove]
    exact ⟨hroot, ⟨.object, (Registry.isInstance_cls rfl).mpr rfl⟩, trivial, fun v hv => nomatch hv⟩
  · exact fun e he => absurd (show e ∈ [] from he) List.not_mem_nil

theorem names_context : holderEnv.Context (.cls namesClass) where
  form := ⟨namesClass, rfl, (Registry.isInstance_cls rfl).mpr rfl⟩
  ownerless := trivial
  edges n x hx e he := by
    have hmem := hx.preserves (fun t ht e he => (namesAbove_step t ht e he).1) List.mem_cons_self
    obtain ⟨-, hinstance, hownerless, hnone⟩ := namesAbove_step x hmem e he
    exact ⟨hinstance, hownerless, fun v hv => absurd hv (hnone v)⟩
  coherent := by
    refine Env.coherent_of_closed (P := (· ∈ namesAbove)) List.mem_cons_self
      (fun t ht e he => (namesAbove_step t ht e he).1) ?_
    have honce : ∀ u ∈ namesAbove, ∀ v ∈ namesAbove,
        (holderEnv.erase u == holderEnv.erase v) = true → (u == v) = true := by decide
    exact fun u v hu hv => honce u hu v hv

/-- A class of names in which a holder of the type around it is captured. -/
theorem captureIn_context_names :
    holderEnv.capturedArgument heldClass Env.baseClass = .ok (holderOf (.var holderVar)) ∧
      holderEnv.supertype (.cls namesClass) holderClass = .ok (holderOf Env.textType) ∧
      ∃ token, captureIn holderEnv heldClass Env.baseClass (.cls namesClass) = .ok token ∧
        Same token.type (holderOf Env.textType) := by
  have hcaptured : holderEnv.capturedArgument heldClass Env.baseClass =
      .ok (holderOf (.var holderVar)) := rfl
  have hview : holderEnv.supertype (.cls namesClass) holderClass =
      .ok (.param none holderClass [Env.textType]) := rfl
  have hdistinct : holderEnv.classes.DistinctParameters := by decide
  have hown : ∀ v, Occurs v (holderOf (.var holderVar)) →
      ∃ p ∈ holderEnv.classes.parameters holderClass, (p == v) = true := by
    intro v hv
    refine ⟨holderVar, List.mem_cons_self, ?_⟩
    cases hv with
    | arg hmem hv =>
        obtain rfl := List.mem_singleton.mp hmem
        cases hv with
        | var h => exact h
  obtain ⟨hsame, hiff⟩ := captureIn_context names_context
    (fun _ _ _ _ => Registry.declaring_unique hdistinct) holderEnv_acyclic (by decide)
    holderEnv_writable hcaptured hown hview
  obtain ⟨token, htoken⟩ := hiff.mpr nofun
  exact ⟨hcaptured, hview, token, htoken, hsame token htoken⟩

end Token

end Generics
