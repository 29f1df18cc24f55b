import Generics.Proofs.Forms
import Generics.Proofs.Replacing

/-!
Two sources of bindings for a type that is resolved for a token: the covariant
ones of the token's type, and those of the scope in which it was written. Both
are put in at once, the scope only for what the covariant bindings leave open. It
does not reach into what they put in, so to resolve with the one and then with
the other is the same exactly as long as there is nothing for it to replace there.
-/

namespace Generics

open Ty (Same Occurs)

/-! ## Equal images -/

namespace Ty

variable {σ τ : Substitution} {s t : Ty} {v : TyVar}

/-- Arrays are equal only over equal components. -/
theorem same_of_arrayOf (hs : s.Writable) (ht : t.Writable) (h : Same s.arrayOf t.arrayOf) :
    Same s t := by
  induction hs generalizing t with
  | @cls c _ =>
      obtain ⟨d, heq, hname⟩ := same_cls.mp h
      cases t with
      | cls d' =>
          obtain rfl := Ty.cls.inj heq
          exact same_cls.mpr ⟨d', rfl, (String.append_left_inj "[]").mp hname⟩
      | _ => cases heq
  | param _ _ _ =>
      obtain ⟨component, heq, hsame⟩ := same_array.mp h
      rwa [arrayOf_eq_array heq]
  | array _ =>
      obtain ⟨component, heq, hsame⟩ := same_array.mp h
      rwa [arrayOf_eq_array heq]
  | wildUpper _ ih =>
      obtain ⟨upper, heq, hsame⟩ := same_wildUpper.mp h
      cases ht with
      | wildUpper hupper =>
          obtain rfl := List.singleton_injective (Ty.wild.inj heq).1
          exact same_wildUpper.mpr ⟨_, rfl, ih hupper hsame⟩
      | _ => cases heq
  | wildLower _ _ ihupper ihlower =>
      obtain ⟨upper, lower, heq, hsameUpper, hsameLower⟩ := same_wildLower.mp h
      cases ht with
      | wildLower hupper hlower =>
          obtain rfl := List.singleton_injective (Ty.wild.inj heq).1
          obtain rfl := List.singleton_injective (Ty.wild.inj heq).2
          exact same_wildLower.mpr
            ⟨_, _, rfl, ihupper hupper hsameUpper, ihlower hlower hsameLower⟩
      | _ => cases heq
  | var _ =>
      obtain ⟨component, heq, hsame⟩ := same_array.mp h
      rwa [arrayOf_eq_array heq]

/-- Substitutions give equal types only if they give equal types for each variable. -/
theorem same_image_of_same_subst (ht : t.Writable)
    (hσ : ∀ v, Occurs v t → ((var v).subst σ).Writable)
    (hτ : ∀ v, Occurs v t → ((var v).subst τ).Writable) (h : Same (t.subst σ) (t.subst τ))
    (hv : Occurs v t) : Same ((var v).subst σ) ((var v).subst τ) := by
  induction ht with
  | cls _ => cases hv
  | @param owner raw args _ _ _ ihowner ihargs =>
      rw [subst_param, subst_param] at h
      obtain ⟨_, _, _, heq, -, howners, hargs⟩ := same_param.mp h
      obtain ⟨rfl, rfl, rfl⟩ := Ty.param.inj heq
      cases hv with
      | owner hv =>
          cases howners with
          | some hsame =>
              exact ihowner _ rfl (fun v hv => hσ v (.owner hv)) (fun v hv => hτ v (.owner hv))
                hsame hv
      | arg hmem hv =>
          rw [List.forall₂_map_left_iff, List.forall₂_map_right_iff, List.forall₂_same] at hargs
          exact ihargs _ hmem (fun v hv => hσ v (.arg hmem hv)) (fun v hv => hτ v (.arg hmem hv))
            (hargs _ hmem) hv
  | array hcomponent ih =>
      cases hv with
      | component hv =>
          have hσ' := fun v hv => hσ v (.component hv)
          have hτ' := fun v hv => hτ v (.component hv)
          exact ih hσ' hτ' (same_of_arrayOf (writable_subst hcomponent hσ')
            (writable_subst hcomponent hτ') h) hv
  | wildUpper _ ih =>
      obtain ⟨_, heq, hsame⟩ := same_wildUpper.mp h
      obtain rfl := List.singleton_injective (Ty.wild.inj heq).1
      cases hv with
      | upper hmem hv =>
          obtain rfl := List.mem_singleton.mp hmem
          exact ih (fun v hv => hσ v (.upper hmem hv)) (fun v hv => hτ v (.upper hmem hv)) hsame hv
      | lower hmem _ => cases hmem
  | wildLower _ _ ihupper ihlower =>
      obtain ⟨_, _, heq, hsameUpper, hsameLower⟩ := same_wildLower.mp h
      obtain rfl := List.singleton_injective (Ty.wild.inj heq).1
      obtain rfl := List.singleton_injective (Ty.wild.inj heq).2
      cases hv with
      | upper hmem hv =>
          obtain rfl := List.mem_singleton.mp hmem
          exact ihupper (fun v hv => hσ v (.upper hmem hv)) (fun v hv => hτ v (.upper hmem hv))
            hsameUpper hv
      | lower hmem hv =>
          obtain rfl := List.mem_singleton.mp hmem
          exact ihlower (fun v hv => hσ v (.lower hmem hv)) (fun v hv => hτ v (.lower hmem hv))
            hsameLower hv
  | var _ =>
      cases hv with
      | var hw =>
          exact same_trans (same_image_of_beq σ (BEq.symm hw))
            (same_trans h (same_image_of_beq τ hw))

/-- Substitutions give equal types exactly if they give equal types for each variable. -/
theorem same_subst_iff (ht : t.Writable)
    (hσ : ∀ v, Occurs v t → ((var v).subst σ).Writable)
    (hτ : ∀ v, Occurs v t → ((var v).subst τ).Writable) :
    Same (t.subst σ) (t.subst τ) ↔
      ∀ v, Occurs v t → Same ((var v).subst σ) ((var v).subst τ) :=
  ⟨fun h _ => same_image_of_same_subst ht hσ hτ h, same_subst ht hσ⟩

end Ty

/-! ## One substitution after another -/

namespace Substitution

variable {isClass : ClassRef → Prop} {σ τ : Substitution} {s t : Ty} {v w : TyVar}

theorem Binds.writable (h : σ.Binds (Ty.Formed isClass)) : σ.Writable := by
  intro v t hget
  exact (h.get? hget).writable

theorem get?_absorb (σ τ : Substitution) (v : TyVar) :
    (σ.absorb τ).get? v = (σ.get? v).or (τ.get? v) :=
  get?_insertAllNew σ τ.bindings v

/-- The variable stays as it is, perhaps because it is mapped to itself. -/
def Fixes (σ : Substitution) (v : TyVar) : Prop := Same (.var v) ((Ty.var v).subst σ)

theorem Fixes.of_beq (h : σ.Fixes v) (hvw : (v == w) = true) : σ.Fixes w :=
  Ty.same_trans (Ty.same_var.mpr ⟨v, rfl, BEq.symm hvw⟩)
    (Ty.same_trans h (Ty.same_image_of_beq σ hvw))

/-- A type stays as it is if its variables do. -/
theorem same_subst_self_iff (ht : t.Formed isClass) (hτ : τ.Writable) :
    Same t (t.subst τ) ↔ ∀ v, Occurs v t → τ.Fixes v := by
  have hid : t.subst .empty = t := Ty.subst_eq_self ht fun _ _ => rfl
  have hiff := Ty.same_subst_iff (σ := .empty) (τ := τ) ht.writable
    (fun v _ => .var trivial) fun v _ => hτ.image v
  rwa [hid] at hiff

/-- To put in the bindings of both at once is the same for a variable as to put in
those of the first and then those of the second, if the second leaves alone what
the first puts in. -/
theorem same_absorb_iff (hσ : σ.Binds (Ty.Formed isClass)) (hτ : τ.Writable) :
    Same ((Ty.var v).subst (σ.absorb τ)) ((Ty.var v).subst (σ.andThen τ)) ↔
      ∀ s, σ.get? v = some s → ∀ w, Occurs w s → τ.Fixes w := by
  rw [Ty.subst_var, Ty.subst_var, get?_absorb, get?_andThen]
  cases hget : σ.get? v with
  | none => exact ⟨fun _ _ => nofun, fun _ => Ty.same_refl _⟩
  | some s =>
      simp only [Option.some_or, Option.map_some, Option.getD_some, Option.some.injEq,
        forall_eq']
      exact same_subst_self_iff (hσ.get? hget) hτ

end Substitution

/-! ## Types that leave open only given variables -/

namespace Env

variable {env : Env} {kept leaf leaf' : TyVar → Prop} {t y : Ty} {σ τ : Substitution}

/-- A type that spells out given variables, and whose parts leave open only given
variables in the edges of their classes. -/
inductive Supplied (env : Env) (kept leaf : TyVar → Prop) : Ty → Prop where
  | cls {c} (hedges : ∀ e ∈ env.classes.directSupertypes c, ∀ v, Occurs v e → kept v) :
      Supplied env kept leaf (.cls c)
  | param {owner raw args} (howner : ∀ t ∈ owner, Supplied env kept leaf t)
      (hargs : ∀ t ∈ args, Supplied env kept leaf t)
      (hedges : ∀ e ∈ env.classes.directSupertypes raw, ∀ v, Occurs v e →
        kept v ∨ ∃ pair ∈ (env.classes.parameters raw).zip args, (pair.1 == v) = true) :
      Supplied env kept leaf (.param owner raw args)
  | array {component} (h : Supplied env kept leaf component) :
      Supplied env kept leaf (.array component)
  | wildUpper {upper} (hupper : Supplied env kept leaf upper) :
      Supplied env kept leaf (.wild [upper] [])
  | wildLower {upper lower} (hupper : Supplied env kept leaf upper)
      (hlower : Supplied env kept leaf lower) : Supplied env kept leaf (.wild [upper] [lower])
  | var {v} (hv : leaf v) : Supplied env kept leaf (.var v)

theorem not_occurs_arrayEdge {c : ClassRef} {v : TyVar} {e : Ty}
    (he : e ∈ env.classes.directSupertypes (.arrayOf c)) : ¬Occurs v e := by
  have htops : e ∈ arrayTops.map Ty.cls := he
  obtain ⟨d, -, rfl⟩ := List.mem_map.mp htops
  exact nofun

theorem Supplied.arrayOf (h : env.Supplied kept leaf t) : env.Supplied kept leaf t.arrayOf := by
  induction h with
  | cls _ => exact .cls fun e he v hv => absurd hv (not_occurs_arrayEdge he)
  | param howner hargs hedges _ _ => exact .array (.param howner hargs hedges)
  | array h _ => exact .array (.array h)
  | wildUpper _ ih => exact .wildUpper ih
  | wildLower _ _ ihupper ihlower => exact .wildLower ihupper ihlower
  | var hv => exact .array (.var hv)

theorem Supplied.subst (h : env.Supplied kept leaf t)
    (himage : ∀ v, Occurs v t → env.Supplied kept leaf' ((Ty.var v).subst σ)) :
    env.Supplied kept leaf' (t.subst σ) := by
  induction h with
  | cls hedges => exact .cls hedges
  | @param owner raw args _ _ hedges ihowner ihargs =>
      rw [Ty.subst_param]
      refine .param ?_ ?_ fun e he v hv => (hedges e he v hv).imp_right ?_
      · intro t ht
        obtain ⟨o, rfl, rfl⟩ := Option.map_eq_some_iff.mp ht
        exact ihowner o rfl fun v hv => himage v (.owner hv)
      · intro t ht
        obtain ⟨a, ha, rfl⟩ := List.mem_map.mp ht
        exact ihargs a ha fun v hv => himage v (.arg ha hv)
      · rintro ⟨⟨p, a⟩, hpair, hpv⟩
        refine ⟨(p, a.subst σ), ?_, hpv⟩
        rw [List.zip_map_right]
        exact List.mem_map.mpr ⟨(p, a), hpair, rfl⟩
  | array _ ih => exact (ih fun v hv => himage v (.component hv)).arrayOf
  | wildUpper _ ih =>
      exact .wildUpper (ih fun v hv => himage v (.upper List.mem_cons_self hv))
  | wildLower _ _ ihupper ihlower =>
      exact .wildLower (ihupper fun v hv => himage v (.upper List.mem_cons_self hv))
        (ihlower fun v hv => himage v (.lower List.mem_cons_self hv))
  | var _ => exact himage _ (Ty.occurs_self _)

theorem Supplied.leaf_of_occurs (h : env.Supplied kept leaf t)
    (hleaf : ∀ v w, leaf v → (v == w) = true → leaf w) {v : TyVar} (hv : Occurs v t) : leaf v := by
  induction h with
  | cls _ => cases hv
  | param _ _ _ ihowner ihargs =>
      cases hv with
      | owner hv => exact ihowner _ rfl hv
      | arg hmem hv => exact ihargs _ hmem hv
  | array _ ih =>
      cases hv with
      | component hv => exact ih hv
  | wildUpper _ ih =>
      cases hv with
      | upper hmem hv =>
          obtain rfl := List.mem_singleton.mp hmem
          exact ih hv
      | lower hmem _ => cases hmem
  | wildLower _ _ ihupper ihlower =>
      cases hv with
      | upper hmem hv =>
          obtain rfl := List.mem_singleton.mp hmem
          exact ihupper hv
      | lower hmem hv =>
          obtain rfl := List.mem_singleton.mp hmem
          exact ihlower hv
  | var hw =>
      cases hv with
      | var hwv => exact hleaf _ _ hw hwv

/-- A type, the bounds of its variables and all edges leave open no other variables than
given ones, apart from what an edge has from its class. -/
structure LeavesOpen (env : Env) (kept : TyVar → Prop) (t : Ty) : Prop where
  type : env.Supplied kept kept t
  edges : ∀ c, ∀ e ∈ env.classes.directSupertypes c, env.Supplied kept (fun _ => True) e
  bounds : ∀ v, kept v → ∀ b ∈ env.bounds.effective v, env.Supplied kept kept b

/-- Every binding leaves open given variables only. -/
def Fills (env : Env) (kept : TyVar → Prop) (σ : Substitution) : Prop :=
  ∀ v s, σ.get? v = some s → env.Supplied kept kept s

section

variable {visit : Ty → Visit Substitution → Visit Substitution} {c : ClassRef}
  (hedges : ∀ c, ∀ e ∈ env.classes.directSupertypes c, env.Supplied kept (fun _ => True) e)
  (hgrows : ∀ t s, Visit.Grows Substitution.PartOf s (visit t s))
  (hvisit : ∀ t s, env.Supplied kept kept t → env.Fills kept s.acc →
    env.Fills kept (visit t s).acc)

include hedges hgrows hvisit

/-- An edge is resolved to a type that leaves open given variables only, as long as those that
the class does not leave open are bound. -/
theorem visitEdges_fills {s : Visit Substitution} (hs : env.Fills kept s.acc)
    (hclass : ∀ e ∈ env.classes.directSupertypes c, ∀ v, Occurs v e →
      kept v ∨ (s.acc.get? v).isSome = true) :
    env.Fills kept (env.visitEdges visit c s).acc := by
  have hsub := fun e he => hedges c e he
  unfold visitEdges
  generalize env.classes.directSupertypes c = edges at hclass hsub
  induction edges generalizing s with
  | nil => exact hs
  | cons e edges ih =>
      obtain ⟨hfirst, hrest⟩ := List.forall_mem_cons.mp hclass
      obtain ⟨he, hsub⟩ := List.forall_mem_cons.mp hsub
      have hresolved : env.Supplied kept kept (e.subst s.acc) := by
        refine he.subst fun v hv => ?_
        rw [Ty.subst_var]
        cases hget : s.acc.get? v with
        | some b => exact hs v b hget
        | none =>
            refine .var ((hfirst v hv).resolve_right ?_)
            rw [hget]
            exact Bool.false_ne_true
      refine ih (hvisit _ s hresolved hs) (fun e' he' v hv => (hrest e' he' v hv).imp_right ?_) hsub
      intro hsome
      obtain ⟨b, hb⟩ := Option.isSome_iff_exists.mp hsome
      exact Option.isSome_iff_exists.mpr ⟨b, (hgrows _ s).acc_le v b hb⟩

end

theorem fills_recordArgs {parameters : List TyVar} {args : List Ty} (hσ : env.Fills kept σ)
    (hargs : ∀ a ∈ args, env.Supplied kept kept a) :
    env.Fills kept (recordArgs σ parameters args) := by
  intro v s hget
  rw [recordArgs_eq] at hget
  rcases mem_of_records hget with hold | ⟨p, hmem, -⟩
  · exact hσ v s hold
  · exact hargs s (List.of_mem_zip hmem).2

/-- Every covariant binding leaves open given variables only. -/
theorem covariantly_fills (hkept : ∀ v w, kept v → (v == w) = true → kept w)
    (h : env.LeavesOpen kept t) : env.Fills kept (env.covariantly t) := by
  refine Visit.within_preserves (P := env.Fills kept) (Q := env.Supplied kept kept)
    partOf_growth (covariantHandler_adds env) ?_ _ h.type fun v s hget => nomatch hget
  intro visit hgrows hvisit y s hy hs
  cases hy with
  | @cls c hclass =>
      exact visitEdges_fills h.edges hgrows hvisit hs fun e he v hv => Or.inl (hclass e he v hv)
  | @param owner raw args howner hargs hclass =>
      refine Visit.all_preserves (P := env.Fills kept) (fun o ho s => ?_) ?_
      · exact hvisit o s (howner o (Option.mem_toList.mp ho))
      · refine visitEdges_fills h.edges hgrows hvisit (s := s.modify _)
          (fills_recordArgs hs hargs) fun e he v hv => ?_
        rcases hclass e he v hv with hv | ⟨⟨p, a⟩, hpair, hpv⟩
        · exact Or.inl hv
        -- an argument that is the parameter itself is not recorded, but it is spelled out
        cases hvar : Substitution.isVariable p a with
        | true =>
            left
            cases a with
            | var w =>
                cases hargs _ (List.of_mem_zip hpair).2 with
                | var hw => exact hkept w v hw (BEq.trans hvar hpv)
            | _ => cases hvar
        | false =>
            right
            rw [← Substitution.get?_of_beq _ hpv]
            exact isSome_of_records hpair hvar
  | array _ => exact hs
  | wildUpper hupper =>
      exact hvisit _ s hupper hs
  | wildLower hupper _ =>
      exact hvisit _ s hupper hs
  | @var v hv =>
      exact Visit.all_preserves (P := env.Fills kept)
        (fun b hb s => hvisit b s (h.bounds v hv b hb)) hs

end Env

/-! ## Both in one go, or one after the other -/

namespace Token

variable {env : Env} {token : Token} {t : Ty}

def rawList : Token := ⟨.cls Env.arrayListClass, ⟨[(Env.arrayListVar, Env.stringType)]⟩⟩

theorem listEnv_formed : Env.listEnv.Formed fun _ => True where
  classes := by
    have hall : Env.listEnv.classes.decls.toList.flatMap (fun entry => entry.2.supertypes) =
        [Ty.object, listOf Env.arrayListVar] := rfl
    refine Registry.formed_of_supertypes (Registry.forall_supertypes hall ?_)
    exact List.forall_mem_cons.mpr
      ⟨.cls trivial, List.forall_mem_singleton.mpr (listOf_formed Env.arrayListVar)⟩
  bounds := BoundTable.formed_empty

/-- Lists leave open only what their arguments leave open. -/
theorem stringList_leavesOpen (kept : TyVar → Prop) :
    Env.listEnv.LeavesOpen kept Env.stringList := by
  have hcls : ∀ {leaf c}, Env.listEnv.classes.directSupertypes c = [] →
      Env.listEnv.Supplied kept leaf (.cls c) := by
    intro leaf c hnone
    exact .cls fun e he => absurd (hnone ▸ he) List.not_mem_nil
  have hlist : Env.listEnv.Supplied kept (fun _ => True) (listOf Env.arrayListVar) := by
    refine .param nofun (List.forall_mem_singleton.mpr (.var trivial)) fun e he => ?_
    exact absurd (show e ∈ [] from he) List.not_mem_nil
  have hdeclared : ∀ e ∈ [Ty.object, listOf Env.arrayListVar],
      Env.listEnv.Supplied kept (fun _ => True) e := by
    simp only [List.forall_mem_cons]
    exact ⟨hcls rfl, hlist, List.forall_mem_nil _⟩
  have htops : ∀ e ∈ Env.arrayTops.map Ty.cls, Env.listEnv.Supplied kept (fun _ => True) e := by
    simp only [List.map_cons, List.map_nil, List.forall_mem_cons]
    exact ⟨hcls rfl, hcls rfl, hcls rfl, List.forall_mem_nil _⟩
  refine ⟨.param nofun (List.forall_mem_singleton.mpr (hcls rfl)) fun e he v hv => ?_, ?_, ?_⟩
  · have he : e ∈ [Ty.object, listOf Env.arrayListVar] := he
    simp only [List.mem_cons, List.not_mem_nil, or_false] at he
    rcases he with rfl | rfl
    · cases hv
    · cases hv with
      | arg hmem hv =>
          obtain rfl := List.mem_singleton.mp hmem
          cases hv with
          | var h => exact Or.inr ⟨_, List.mem_cons_self, h⟩
  · rintro (⟨name, kind⟩ | ⟨name, component⟩)
    · have hall : Env.listEnv.classes.decls.toList.flatMap (fun entry => entry.2.supertypes) =
          [Ty.object, listOf Env.arrayListVar] := rfl
      exact Registry.forall_edges (Registry.forall_supertypes hall hdeclared) rfl
    · exact htops
  · intro v _ b hb
    have hb : b ∈ [Ty.object] := by
      simpa [Env.listEnv, BoundTable.effective, BoundTable.declared, BoundTable.empty] using hb
    obtain rfl := List.mem_singleton.mp hb
    exact hcls rfl

end Token

end Generics
