import Generics.Proofs.Assignability

/-!
Instances of generic forms by their shape: as many arguments as the class has
parameters, and an owner of this kind. Putting equal types into one shape gives
types that are alike down their owners, which are followed by the same edges.
Where no two declared parameters are equal, a parameter stands for one place in
the arguments of one class.
-/

namespace Generics

namespace Registry

variable {registry : Registry} {c d : ClassRef} {p q : TyVar}

/-- No two declared parameters are equal, of one class or of two. -/
def DistinctParameters (registry : Registry) : Prop :=
  (registry.decls.toList.flatMap fun entry => entry.2.parameters).Pairwise
    fun p q => (p == q) = false

instance (registry : Registry) : Decidable registry.DistinctParameters :=
  inferInstanceAs (Decidable ((registry.decls.toList.flatMap
    fun entry => entry.2.parameters).Pairwise fun p q => (p == q) = false))

/-- Different classes declare different parameters. -/
def ApartParameters (registry : Registry) : Prop :=
  ∀ c d p q, p ∈ registry.parameters c → q ∈ registry.parameters d → (p == q) = true →
    c.name = d.name

theorem mem_parameters (h : p ∈ registry.parameters c) :
    ∃ d, (c.name, d) ∈ registry.decls.toList ∧ registry.parameters c = d.parameters := by
  cases hd : registry.decls[c.name]? with
  | none => simp [parameters, decl?, hd] at h
  | some d =>
      exact ⟨d, Std.TreeMap.mem_toList_iff_getElem?_eq_some.mpr hd,
        by simp [parameters, decl?, hd]⟩

theorem parameters_distinct (h : registry.DistinctParameters) (c : ClassRef) :
    (registry.parameters c).Pairwise fun p q => (p == q) = false := by
  cases hp : registry.parameters c with
  | nil => exact .nil
  | cons p ps =>
      obtain ⟨d, hmem, heq⟩ := mem_parameters
        (show p ∈ registry.parameters c by rw [hp]; exact List.mem_cons_self)
      rw [← hp, heq]
      exact (List.pairwise_flatMap.mp h).1 (c.name, d) hmem

/-- Equal parameters are declared by one class. -/
theorem declaring_unique (h : registry.DistinctParameters) (hp : p ∈ registry.parameters c)
    (hq : q ∈ registry.parameters d) (heq : (p == q) = true) : c.name = d.name := by
  obtain ⟨e, he, hpe⟩ := mem_parameters hp
  obtain ⟨f, hf, hqf⟩ := mem_parameters hq
  rw [hpe] at hp
  rw [hqf] at hq
  by_contra hname
  let apart (a b : String × ClassDecl) : Prop :=
    ∀ p ∈ a.2.parameters, ∀ q ∈ b.2.parameters, (p == q) = false
  have hsymm : Std.Symm apart := by
    refine ⟨fun a b hab q hq p hp => ?_⟩
    rw [← Bool.not_eq_true]
    intro hqp
    have hpq := hab p hp q hq
    rw [BEq.symm hqp] at hpq
    cases hpq
  have hapart : registry.decls.toList.Pairwise apart := (List.pairwise_flatMap.mp h).2
  have hfalse := hapart.forall he hf (fun heq => hname (congrArg Prod.fst heq)) p hp q hq
  rw [heq] at hfalse
  cases hfalse

end Registry

namespace Ty

/-- A type that belongs to no instance of another one. -/
def Ownerless : Ty → Prop
  | param owner _ _ => owner = none
  | _ => True

instance : DecidablePred Ownerless
  | param none _ _ => isTrue rfl
  | param (some _) _ _ => isFalse nofun
  | cls _ | array _ | wild _ _ | var _ => isTrue trivial

theorem Ownerless.arrayOf (t : Ty) : t.arrayOf.Ownerless := by
  cases t <;> exact trivial

end Ty

namespace Env

open Ty (Same Occurs)

variable {env : Env} {t u x y : Ty} {c d : ClassRef} {v p : TyVar} {σ τ : Substitution}

/-! ## Instances and their shape -/

/-- Types with as many arguments as their class has parameters, and owners of
this kind. -/
inductive Shaped (env : Env) : Ty → Prop where
  | cls (c : ClassRef) : Shaped env (.cls c)
  | bare {raw args} (hargs : args.length = (env.classes.parameters raw).length) :
      Shaped env (.param none raw args)
  | owned {owner raw args} (howner : Shaped env owner)
      (hargs : args.length = (env.classes.parameters raw).length) :
      Shaped env (.param (some owner) raw args)
  | array {component} (h : Shaped env component) (hne : ∀ c, component ≠ .cls c) :
      Shaped env (.array component)

theorem Shaped.subst (h : env.Shaped t) (σ : Substitution) : env.Shaped (t.subst σ) ∧
    ((∀ c, t ≠ .cls c) → (∀ c, t.subst σ ≠ .cls c) ∧
      (t.subst σ).arrayOf = .array (t.subst σ)) := by
  induction h with
  | cls c => exact ⟨.cls c, fun h => absurd rfl (h c)⟩
  | bare hargs =>
      rw [Ty.subst_param]
      exact ⟨.bare (by rw [List.length_map, hargs]), fun _ => ⟨(fun _ h => by cases h), rfl⟩⟩
  | owned _ hargs ih =>
      rw [Ty.subst_param]
      exact ⟨.owned ih.1 (by rw [List.length_map, hargs]), fun _ => ⟨(fun _ h => by cases h), rfl⟩⟩
  | array _ hne ih =>
      obtain ⟨hneSubst, harray⟩ := ih.2 hne
      rw [Ty.subst_array, harray]
      exact ⟨.array ih.1 hneSubst, fun _ => ⟨(fun _ h => by cases h), rfl⟩⟩

theorem shaped_formSteps (hops : Nat) (c : ClassRef) :
    env.Shaped (env.classes.formSteps hops c) := by
  induction hops generalizing c with
  | zero => exact .cls c
  | succ hops ih =>
      rw [Registry.formSteps]
      induction c with
      | named name kind =>
          rw [Registry.formWithin_of_plain env.classes _ rfl]
          split
          · exact .cls _
          · have hlength : ((env.classes.parameters (.named name kind)).map Ty.var).length =
                (env.classes.parameters (.named name kind)).length := List.length_map ..
            cases howner : env.classes.ownerForm (env.classes.formSteps hops)
                (.named name kind) with
            | none => exact .bare hlength
            | some owner =>
                refine .owned ?_ hlength
                obtain ⟨outer, -, rfl⟩ := Option.map_eq_some_iff.mp howner
                split
                · exact .cls outer
                · exact ih outer
      | array name component ihComponent =>
          rcases Registry.formWithin_array env.classes (env.classes.formSteps hops) name
            component with ⟨-, h⟩ | ⟨hne, h⟩
          · rw [h]
            exact .cls _
          · rw [h]
            refine .array ihComponent fun d hd => hne ?_
            rw [Registry.formWithin_cls hd] at hd
            exact hd

theorem shaped_of_isInstance (h : env.classes.IsInstance c t) : env.Shaped t := by
  obtain ⟨σ, -, rfl⟩ := h
  exact ((shaped_formSteps _ c).subst σ).1

theorem writable_of_isInstance (h : env.classes.IsInstance c t) : t.Writable := by
  obtain ⟨σ, hσ, rfl⟩ := h
  exact Ty.writable_subst (Registry.writable_genericForm c) fun v _ => hσ.image v

/-- The raw class of a shape stays when types are put in. -/
theorem Shaped.raw?_subst (h : env.Shaped t) (σ : Substitution) : (t.subst σ).raw? = t.raw? := by
  cases h with
  | cls _ => rfl
  | bare _ =>
      rw [Ty.subst_param]
      rfl
  | owned _ _ =>
      rw [Ty.subst_param]
      rfl
  | array h hne =>
      rw [Ty.subst_array, ((h.subst σ).2 hne).2]
      rfl

theorem Shaped.ownerless_subst (h : env.Shaped t) (ht : t.Ownerless) (σ : Substitution) :
    (t.subst σ).Ownerless := by
  cases h with
  | cls _ => exact trivial
  | bare _ =>
      rw [Ty.subst_param]
      exact rfl
  | owned _ _ => cases ht
  | array _ _ => exact .arrayOf _

/-- Types of one class, with equal arguments and with owners that are alike. -/
inductive Like : Ty → Ty → Prop where
  | cls (c : ClassRef) : Like (.cls c) (.cls c)
  | bare {raw args args'} (hargs : List.Forall₂ Same args args') :
      Like (.param none raw args) (.param none raw args')
  | owned {owner owner' raw args args'} (howner : Like owner owner')
      (hargs : List.Forall₂ Same args args') :
      Like (.param (some owner) raw args) (.param (some owner') raw args')
  | array {component component'} (h : Same component component') :
      Like (.array component) (.array component')

theorem Like.raw? (h : Like x y) : x.raw? = y.raw? := by
  cases h <;> rfl

theorem Shaped.like_refl (h : env.Shaped t) : Like t t := by
  have hargs (args : List Ty) : List.Forall₂ Same args args :=
    List.forall₂_same.mpr fun a _ => Ty.same_refl a
  induction h with
  | cls c => exact .cls c
  | bare _ => exact .bare (hargs _)
  | owned _ _ ih => exact .owned ih (hargs _)
  | array _ _ _ => exact .array (Ty.same_refl _)

/-- Putting equal types into one shape gives types that are alike. -/
theorem Shaped.like_subst (h : env.Shaped t) (ht : t.Writable)
    (himage : ∀ v, Occurs v t → ((Ty.var v).subst σ).Writable)
    (hsame : ∀ v, Occurs v t → Same ((Ty.var v).subst σ) ((Ty.var v).subst τ)) :
    Like (t.subst σ) (t.subst τ) := by
  induction h with
  | cls c => exact .cls c
  | bare hargs =>
      have hwhole := Ty.same_subst ht himage hsame
      rw [Ty.subst_param, Ty.subst_param] at hwhole ⊢
      obtain ⟨_, _, _, heq, -, -, hforall⟩ := Ty.same_param.mp hwhole
      cases heq
      exact .bare hforall
  | @owned owner raw args hshaped hargs ih =>
      have hwhole := Ty.same_subst ht himage hsame
      rw [Ty.subst_param, Ty.subst_param] at hwhole ⊢
      obtain ⟨_, _, _, heq, -, -, hforall⟩ := Ty.same_param.mp hwhole
      cases heq
      cases ht with
      | param howner _ _ =>
          exact .owned (ih (howner owner rfl) (fun v hv => himage v (.owner hv))
            fun v hv => hsame v (.owner hv)) hforall
  | array hshaped hne _ =>
      have hwhole := Ty.same_subst ht himage hsame
      rw [Ty.subst_array, Ty.subst_array, ((hshaped.subst σ).2 hne).2,
        ((hshaped.subst τ).2 hne).2] at hwhole ⊢
      obtain ⟨_, heq, hcomponent⟩ := Ty.same_array.mp hwhole
      cases heq
      exact .array hcomponent

/-! ## Parameters and edges -/

theorem raw_of_isInstance (h : env.classes.IsInstance c x) (hd : x.raw? = some d) : c = d := by
  cases hc : c.isArray with
  | false => exact Option.some.inj ((Vocabulary.raw?_of_isInstance h hc).symm.trans hd)
  | true =>
      obtain ⟨σ, -, rfl⟩ := h
      cases c with
      | named _ _ => cases hc
      | array name component =>
          rcases Registry.formWithin_array env.classes (env.classes.formSteps env.classes.size)
            name component with ⟨-, hform⟩ | ⟨hne, hform⟩
          · rw [show env.classes.genericForm (.array name component) = _ from hform] at hd
            exact Option.some.inj hd
          · rw [show env.classes.genericForm (.array name component) = _ from hform,
              Ty.subst_array, (Registry.arrayOf_formWithin env.classes _ component σ).resolve_left
                hne] at hd
            cases hd

/-! ## Bindings by parameter -/

theorem zip_same_right {vs : List TyVar} {ts us : List Ty} (h : List.Forall₂ Same ts us)
    {pair : TyVar × Ty} (hpair : pair ∈ vs.zip us) :
    ∃ a, (pair.1, a) ∈ vs.zip ts ∧ Same a pair.2 := by
  obtain ⟨q, hq, heq, hsame⟩ := forall₂_mem_left (zip_same vs h).flip hpair
  exact ⟨q.2, by rw [← heq]; exact hq, hsame⟩

/-- In lists of equal length a parameter has one place. -/
theorem zip_unique {ps : List TyVar} (hps : ps.Pairwise fun p q => (p == q) = false)
    {as bs : List Ty} (hsame : List.Forall₂ Same as bs) {p q : TyVar} {a b : Ty}
    (ha : (p, a) ∈ ps.zip as) (hb : (q, b) ∈ ps.zip bs) (hpq : (p == q) = true) : Same a b := by
  induction ps generalizing as bs with
  | nil => cases ha
  | cons r ps ih =>
      obtain ⟨hr, hrest⟩ := List.pairwise_cons.mp hps
      cases hsame with
      | nil => cases ha
      | cons hhead htail =>
          rcases List.mem_cons.mp ha with heqa | harest
          · cases heqa
            rcases List.mem_cons.mp hb with heqb | hbrest
            · cases heqb
              exact hhead
            · have hne := hr q (List.of_mem_zip hbrest).1
              rw [hpq] at hne
              cases hne
          · rcases List.mem_cons.mp hb with heqb | hbrest
            · cases heqb
              have hne := hr p (List.of_mem_zip harest).1
              rw [BEq.symm hpq] at hne
              cases hne
            · exact ih hrest htail harest hbrest

theorem exists_zip {ps : List TyVar} {as : List Ty} (hlength : as.length = ps.length)
    (hp : p ∈ ps) : ∃ a, (p, a) ∈ ps.zip as := by
  induction ps generalizing as with
  | nil => cases hp
  | cons r ps ih =>
      cases as with
      | nil => cases hlength
      | cons a as =>
          rcases List.mem_cons.mp hp with rfl | hp
          · exact ⟨a, List.mem_cons_self⟩
          · obtain ⟨b, hb⟩ := ih (Nat.succ.inj hlength) hp
            exact ⟨b, List.mem_cons_of_mem _ hb⟩

theorem carried_writable (ht : t.Writable) (v : TyVar) :
    ((Ty.var v).subst (env.carried t)).Writable := by
  refine carried_forall (carriedPairs_forall (fun owner raw args h => ?_) ht) (.var trivial)
  cases h with
  | param howner _ hargs => exact ⟨howner, hargs⟩

theorem carried_isWritable (hx : x.Writable) : (env.carried x).Writable := by
  intro v t hget
  have himage : ((Ty.var v).subst (env.carried x)).Writable := carried_writable hx v
  rw [Ty.subst_var, hget] at himage
  exact himage

/-- The first of the bindings that a type carries for one of its own parameters. -/
theorem exists_carried_param (owner : Option Ty) {raw : ClassRef} {args : List Ty}
    (ha : (p, t) ∈ (env.classes.parameters raw).zip args) (hpv : (p == v) = true) :
    ∃ q u, (env.carried (.param owner raw args)).get? v = some u ∧
      (q, u) ∈ (env.classes.parameters raw).zip args ∧ (q == v) = true := by
  obtain ⟨u, hu⟩ := Substitution.exists_get? ha hpv
  obtain ⟨q, hmem, hqv⟩ := Substitution.mem_of_get? hu
  refine ⟨q, u, ?_, hmem, hqv⟩
  rw [get?_carried]
  cases owner with
  | none => exact hu
  | some owner =>
      rw [carriedPairs, Substitution.get?_append, hu]
      rfl

/-! ## Edges -/

/-- Edges that lead to instances of generic forms, and mention parameters of
the class that declares them only. -/
structure OwnEdges (env : Env) : Prop where
  instances : ∀ c, c.isArray = false → ∀ e ∈ env.classes.directSupertypes c,
    ∃ d, env.classes.IsInstance d e
  own : ∀ c, c.isArray = false → ∀ e ∈ env.classes.directSupertypes c,
    ∀ v, Occurs v e → ∃ p ∈ env.classes.parameters c, (p == v) = true

/-- What is known of an edge of any class, an array class among them. -/
structure OwnEdge (env : Env) (c : ClassRef) (e : Ty) : Prop where
  shaped : env.Shaped e
  writable : e.Writable
  own : ∀ v, Occurs v e → ∃ p ∈ env.classes.parameters c, (p == v) = true

theorem OwnEdges.edge (h : env.OwnEdges) {e : Ty}
    (he : e ∈ env.classes.directSupertypes c) : env.OwnEdge c e := by
  cases hc : c.isArray with
  | true =>
      obtain ⟨d, -, rfl⟩ := Subtyping.array_edge hc he
      exact ⟨.cls d, .cls trivial, fun v hv => by cases hv⟩
  | false =>
      obtain ⟨d, hd⟩ := h.instances c hc e he
      exact ⟨shaped_of_isInstance hd, writable_of_isInstance hd, h.own c hc e he⟩

/-- A check of what edges mention, declaration by declaration. -/
theorem own_of_check (h : ∀ entry ∈ env.classes.decls.toList, ∀ e ∈ entry.2.supertypes,
      e.isWritten (fun _ => true) (fun v => entry.2.parameters.any (· == v)) = true)
    (c : ClassRef) (hc : c.isArray = false) : ∀ e ∈ env.classes.directSupertypes c,
      ∀ v, Occurs v e → ∃ p ∈ env.classes.parameters c, (p == v) = true := by
  intro e he v hv
  obtain ⟨name, kind, rfl⟩ := ClassRef.exists_named hc
  rw [Registry.directSupertypes_named] at he
  cases hd : env.classes.decls[name]? with
  | none => simp [hd] at he
  | some d =>
      have hmem := Std.TreeMap.mem_toList_iff_getElem?_eq_some.mpr hd
      have hparameters : env.classes.parameters (.named name kind) = d.parameters := by
        simp [Registry.parameters, Registry.decl?, ClassRef.name, hd]
      obtain ⟨w, hw, hwv⟩ := Ty.isVar_of_occurs hv
        (Ty.written_of_isWritten (h (name, d) hmem e (by simpa [hd] using he)))
      obtain ⟨p, hp, hpw⟩ := List.any_eq_true.mp hw
      exact ⟨p, by rw [hparameters]; exact hp, BEq.trans hpw hwv⟩

end Env

end Generics
