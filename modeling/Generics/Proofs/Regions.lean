import Generics.Proofs.Climb
import Generics.Proofs.Visiting
import Generics.Token.Closure

/-!
The part of a registry that answers about a type are read from. A region has, with a
class, the classes that its edges are written with, and those around it that its form
is written with. Two registries that declare the classes of a region alike answer alike
about the types that are written with them: the searches and the collections never
leave the region, and a search that is given more steps does not use them.
-/

namespace Generics

/-- An array class with its components, down to the innermost; another class alone. -/
def ClassRef.components : ClassRef → List ClassRef
  | named name kind => [named name kind]
  | array name component => array name component :: component.components

namespace Ty

/-- A class or a parameterized type that is written, with its owners, with classes of a set. -/
inductive Within (R : ClassRef → Prop) : Ty → Prop where
  | cls {c} (hc : R c) : Within R (cls c)
  | param {owner raw args} (howner : ∀ o ∈ owner, Within R o) (hraw : R raw) :
      Within R (param owner raw args)

variable {R : ClassRef → Prop} {t : Ty}

theorem Within.raw (h : t.Within R) : ∃ c, t.raw? = some c ∧ R c := by
  cases h with
  | cls hc => exact ⟨_, rfl, hc⟩
  | param _ hraw => exact ⟨_, rfl, hraw⟩

theorem Within.subst (h : t.Within R) (σ : Substitution) : (t.subst σ).Within R := by
  induction h with
  | cls hc => exact .cls hc
  | param _ hraw ih =>
      rw [subst_param]
      refine .param ?_ hraw
      intro o ho
      obtain ⟨o', ho', rfl⟩ := Option.map_eq_some_iff.mp ho
      exact ih o' ho'

end Ty

namespace Env

/-- A set of classes that is closed under the edges and under what the forms of its classes
mention. -/
structure Region (env : Env) (R : ClassRef → Prop) : Prop where
  edge : ∀ c, R c → ∀ e ∈ env.classes.directSupertypes c, e.Within R
  outer : ∀ c, R c → env.classes.isStatic c = false →
    ∀ outer ∈ env.classes.enclosing? c, ∀ d ∈ outer.components, R d

/-- Another registry that declares the classes of a set alike, and may declare more. -/
structure Agrees (env env' : Env) (R : ClassRef → Prop) : Prop where
  bounds : env'.bounds = env.bounds
  decl : ∀ c, R c → env'.classes.decl? c = env.classes.decl? c
  edgeBound : env.classes.edgeBound ≤ env'.classes.edgeBound
  size : env.classes.size ≤ env'.classes.size

variable {env env' : Env} {R : ClassRef → Prop} {c d target : ClassRef} {s t : Ty}

/-! ## Single look-ups -/

section

variable (hagree : env.Agrees env' R)

include hagree

theorem Agrees.erase (t : Ty) : env'.erase t = env.erase t := by
  rw [Env.erase, Env.erase, hagree.bounds]

theorem Agrees.superclass? (hc : R c) :
    env'.classes.superclass? c = env.classes.superclass? c := by
  cases c with
  | array _ _ => rfl
  | named name kind =>
      exact congrArg (Option.bind · ClassDecl.superclass?) (hagree.decl _ hc)

theorem Agrees.interfaces (hc : R c) : env'.classes.interfaces c = env.classes.interfaces c := by
  cases c with
  | array _ _ => rfl
  | named name kind =>
      exact congrArg (fun decl => (Option.map ClassDecl.interfaces decl).getD []) (hagree.decl _ hc)

theorem Agrees.directSupertypes (hc : R c) :
    env'.classes.directSupertypes c = env.classes.directSupertypes c := by
  rw [Registry.directSupertypes, Registry.directSupertypes, hagree.superclass? hc,
    hagree.interfaces hc]

theorem Agrees.parameters (hc : R c) : env'.classes.parameters c = env.classes.parameters c := by
  rw [Registry.parameters, Registry.parameters, hagree.decl c hc]

theorem Agrees.enclosing? (hc : R c) : env'.classes.enclosing? c = env.classes.enclosing? c := by
  rw [Registry.enclosing?, Registry.enclosing?, hagree.decl c hc]

theorem Agrees.isStatic (hc : R c) : env'.classes.isStatic c = env.classes.isStatic c := by
  rw [Registry.isStatic, Registry.isStatic, hagree.decl c hc]

theorem Agrees.rawSupertypes (hc : R c) : env'.rawSupertypes c = env.rawSupertypes c := by
  rw [Env.rawSupertypes, Env.rawSupertypes, hagree.directSupertypes hc]
  exact List.map_congr_left fun e _ => hagree.erase e

end

/-! ## Raw ancestry -/

theorem Region.rawSupertypes (hregion : env.Region R) (hc : R c) :
    ∀ above ∈ env.rawSupertypes c, R above := by
  intro above habove
  obtain ⟨e, he, rfl⟩ := List.mem_map.mp habove
  obtain ⟨d, hd, hR⟩ := (hregion.edge c hc e he).raw
  rw [erase_of_raw? hd]
  exact hR

/-- An edge of a class that is no array is a declared one. -/
theorem mem_rawEdges {above : ClassRef} (hc : c.isArray = false)
    (habove : above ∈ env.rawSupertypes c) : above ∈ env.rawEdges := by
  obtain ⟨e, he, rfl⟩ := List.mem_map.mp habove
  refine List.mem_map_of_mem (Registry.forall_edges (fun entry hentry e he => ?_) hc e he)
  exact List.mem_flatMap.mpr ⟨entry, hentry, he⟩

section

variable (hregion : env.Region R) (hagree : env.Agrees env' R)

include hregion hagree

theorem inherits_agree (hc : R c) (harray : c.isArray = false) (target : ClassRef) :
    env'.inherits c target = env.inherits c target := by
  have hsteps : env.ancestrySteps ≤ env'.ancestrySteps := by
    have hle := hagree.edgeBound
    unfold ancestrySteps
    omega
  -- array classes are met on declared edges only
  let P : ClassRef → Prop := fun c => R c ∧ (c.isArray = true → c ∈ env.rawEdges)
  have hnodes : ∀ c, P c → ∀ above ∈ env.rawSupertypes c, P above := by
    rintro c ⟨hc, -⟩ above habove
    refine ⟨hregion.rawSupertypes hc above habove, fun haboveArray => ?_⟩
    cases hcarray : c.isArray with
    | false => exact mem_rawEdges hcarray habove
    | true =>
        rw [rawSupertypes_array hcarray] at habove
        rw [(ClassRef.isPlain_iff.mp (arrayTop_isPlain habove)).1] at haboveArray
        cases haboveArray
  have hP : P c := ⟨hc, by rw [harray]; nofun⟩
  have hends := ancestry_ne_outOfSteps_of_closed hnodes (fun _ h => h.2) target hP
  have hexpand : ∀ c, P c → env'.ancestryStep target c = env.ancestryStep target c := by
    rintro c ⟨hc, -⟩
    rw [ancestryStep, ancestryStep, hagree.rawSupertypes hc]
  rw [inherits_eq, inherits_eq, search_congr
    (fun c hc above h => hnodes c hc above (ancestryStep_nodes target c above h)) hexpand _ hP,
    search_of_le hsteps hends]

/-- Of two classes one of which is no array, raw ancestry reads the lower one's region. -/
theorem isSubclass_agree (hc : R c) (harray : c.isArray = false ∨ target.isArray = false) :
    env'.isSubclass c target = env.isSubclass c target := by
  rw [isSubclass.eq_def, isSubclass.eq_def]
  cases c with
  | array _ _ =>
      cases target with
      | array _ _ => cases harray <;> contradiction
      | named _ _ => rfl
  | named name kind =>
      cases target with
      | array _ _ => rfl
      | named _ _ =>
          simp only
          rw [inherits_agree hregion hagree hc rfl]

/-! ## Views -/

omit hregion in
theorem isRawUse_agree (hc : t.raw? = some c) (hR : R c) : env'.isRawUse t = env.isRawUse t := by
  cases t with
  | cls d =>
      obtain rfl := Option.some.inj hc
      rw [isRawUse, isRawUse, hagree.parameters hR]
  | param _ _ _ => rfl
  | _ => cases hc

omit hregion in
theorem addCarried_agree (ht : t.Within R) (σ : Substitution) :
    env'.addCarried σ t = env.addCarried σ t := by
  induction ht generalizing σ with
  | cls _ => rfl
  | @param owner raw args _ hraw ih =>
      cases owner with
      | none => rw [addCarried, addCarried, hagree.parameters hraw]
      | some o =>
          rw [addCarried, addCarried, hagree.parameters hraw]
          exact ih o rfl _

/-- A form carries the parameters of its class and of the classes around it. -/
theorem addCarried_formSteps_agree (hops : Nat) (hc : ∀ d ∈ c.components, R d)
    (σ : Substitution) : env'.addCarried σ (env.classes.formSteps hops c) =
      env.addCarried σ (env.classes.formSteps hops c) := by
  induction hops generalizing c σ with
  | zero => rfl
  | succ hops ih =>
      rw [Registry.formSteps]
      cases c with
      | array name component =>
          rcases Registry.formWithin_array env.classes (env.classes.formSteps hops) name component
            with ⟨-, hform⟩ | ⟨-, hform⟩
          · rw [hform]
            rfl
          · rw [hform]
            rfl
      | named name kind =>
          have hself : R (.named name kind) := hc _ List.mem_cons_self
          rw [Registry.formWithin_of_plain env.classes _ rfl]
          split
          · rfl
          · cases howner : env.classes.ownerForm (env.classes.formSteps hops)
              (.named name kind) with
            | none => rw [addCarried, addCarried, hagree.parameters hself]
            | some o =>
                rw [addCarried, addCarried, hagree.parameters hself]
                obtain ⟨outer, houter, rfl⟩ := Option.map_eq_some_iff.mp howner
                split
                · rfl
                · rename_i hstatic
                  exact ih (hregion.outer _ hself (Bool.eq_false_of_not_eq_true hstatic) outer
                    houter) _

/-- A type from which the walk goes on alike. -/
def Alike (env env' : Env) (R : ClassRef → Prop) (t : Ty) : Prop :=
  (∃ c, t.raw? = some c ∧ R c) ∧ env'.carried t = env.carried t

omit hregion in
theorem alike_of_within (ht : t.Within R) : Alike env env' R t :=
  ⟨ht.raw, addCarried_agree hagree ht _⟩

omit hregion in
theorem instantiated_agree (ht : Alike env env' R t) (e : Ty) :
    env'.instantiated t e = env.instantiated t e := by
  obtain ⟨⟨c, hc, hR⟩, hcarried⟩ := ht
  rw [instantiated, instantiated, isRawUse_agree hagree hc hR, hagree.erase, hcarried]

omit hregion hagree in
theorem within_instantiated {e : Ty} (he : e.Within R) (t : Ty) :
    (env.instantiated t e).Within R := by
  unfold instantiated
  split
  · obtain ⟨c, hc, hR⟩ := he.raw
    rw [erase_of_raw? hc]
    exact .cls hR
  · exact he.subst _

theorem viewStep_agree (ht : Alike env env' R t) (htarget : target.isArray = false) :
    env'.viewStep target t = env.viewStep target t := by
  obtain ⟨c, hc, hR⟩ := ht.1
  rw [viewStep_eq, viewStep_eq, hagree.erase, erase_of_raw? hc, hagree.directSupertypes hR]
  have hkept : (env.classes.directSupertypes c).filter
      (fun e => env'.isSubclass (env.erase e) target) =
        (env.classes.directSupertypes c).filter fun e => env.isSubclass (env.erase e) target := by
    refine List.filter_congr fun e he => ?_
    obtain ⟨d, hd, hRd⟩ := (hregion.edge c hR e he).raw
    rw [erase_of_raw? hd, isSubclass_agree hregion hagree hRd (Or.inr htarget)]
  have hinstantiated : env'.instantiated t = env.instantiated t :=
    funext (instantiated_agree hagree ht)
  simp only [hagree.erase, hkept, hinstantiated]

theorem viewStep_alike (ht : Alike env env' R t) :
    ∀ u ∈ (env.viewStep target t).nodes, Alike env env' R u := by
  obtain ⟨c, hc, hR⟩ := ht.1
  intro u hu
  obtain ⟨e, he, rfl, -⟩ := viewStep_nodes hu
  rw [erase_of_raw? hc] at he
  exact alike_of_within hagree (within_instantiated (hregion.edge c hR e he) t)

/-- The form of a class, as far as it is worked out, is read in the region. -/
theorem formSteps_agree (hops : Nat) (hc : ∀ d ∈ c.components, R d) :
    env'.classes.formSteps hops c = env.classes.formSteps hops c := by
  induction hops generalizing c with
  | zero => rfl
  | succ hops ih =>
      rw [Registry.formSteps, Registry.formSteps]
      induction c with
      | array name component ihComponent =>
          rw [Registry.formWithin, Registry.formWithin,
            ihComponent fun d hd => hc d (List.mem_cons_of_mem _ hd)]
      | named name kind =>
          have hself : R (.named name kind) := hc _ List.mem_cons_self
          have howner : env'.classes.ownerForm (env'.classes.formSteps hops) (.named name kind) =
              env.classes.ownerForm (env.classes.formSteps hops) (.named name kind) := by
            rw [Registry.ownerForm, Registry.ownerForm, hagree.enclosing? hself,
              hagree.isStatic hself]
            refine Option.map_congr fun outer houter => ?_
            split
            · rfl
            · rename_i hstatic
              exact ih (hregion.outer _ hself (Bool.eq_false_of_not_eq_true hstatic) outer houter)
          rw [Registry.formWithin_of_plain _ _ rfl, Registry.formWithin_of_plain _ _ rfl,
            Registry.isBare, Registry.isBare, howner, hagree.parameters hself]

/-- The walk from a type starts alike, if a class has the same form. -/
theorem viewStart_agree (ht : t.Within R) (hraw : (env.erase t).isArray = false)
    (hform : ∀ c ∈ t.class?, env'.classes.genericForm c = env.classes.genericForm c) :
    ∃ start, env.viewStart t = some start ∧ env'.viewStart t = some start ∧
      Alike env env' R start := by
  obtain ⟨c, hc, hR⟩ := ht.raw
  rw [erase_of_raw? hc] at hraw
  refine ⟨env.climbStart t, viewStart_eq_climbStart hc hraw, ?_, ?_⟩
  · rw [viewStart_eq_climbStart hc hraw]
    cases t with
    | cls d => exact congrArg some (hform d rfl)
    | _ => rfl
  · cases t with
    | cls d =>
        obtain rfl := Option.some.inj hc
        obtain ⟨name, kind, rfl⟩ := ClassRef.exists_named hraw
        have hself : ∀ d ∈ ClassRef.components (.named name kind), R d :=
          List.forall_mem_singleton.mpr hR
        exact ⟨⟨_, raw?_genericForm rfl, hR⟩,
          addCarried_formSteps_agree hregion hagree _ hself _⟩
    | _ => exact alike_of_within hagree ht

theorem viewAs_agree (ht : t.Within R) (hraw : (env.erase t).isArray = false)
    (hform : ∀ c ∈ t.class?, env'.classes.genericForm c = env.classes.genericForm c)
    (htarget : target.isArray = false) : env'.viewAs t target = env.viewAs t target := by
  obtain ⟨start, hstart, hstart', halike⟩ := viewStart_agree hregion hagree ht hraw hform
  have hwalk : search (env'.viewStep target) Limits.walkSteps start =
      search (env.viewStep target) Limits.walkSteps start :=
    search_congr (fun _ ha => viewStep_alike hregion hagree ha)
      (fun _ ha => viewStep_agree hregion hagree ha htarget) _ halike
  rw [viewAs, viewAs, hstart, hstart']
  simp only [hagree.erase, hwalk]

/-- What is found above a type is found alike. -/
theorem supertype_agree (ht : t.Within R) (hraw : (env.erase t).isArray = false)
    (hform : ∀ c ∈ t.class?, env'.classes.genericForm c = env.classes.genericForm c)
    (target : ClassRef) : env'.supertype t target = env.supertype t target := by
  obtain ⟨c, hc, hR⟩ := ht.raw
  have harray : c.isArray = false := erase_of_raw? hc ▸ hraw
  cases htarget : target.isArray with
  | true => rw [supertype_array hc harray htarget, supertype_array hc harray htarget]
  | false =>
      rw [supertype_of_raw? hc htarget, supertype_of_raw? hc htarget,
        isSubclass_agree hregion hagree hR (Or.inl harray),
        viewAs_agree hregion hagree ht hraw hform htarget]

/-! ## Covariant bindings -/

theorem visitEdges_agree {visit visit' : Ty → Visit Substitution → Visit Substitution}
    (hvisit : ∀ t : Ty, t.Within R → ∀ s, visit' t s = visit t s) (hc : R c)
    (s : Visit Substitution) : env'.visitEdges visit' c s = env.visitEdges visit c s := by
  rw [visitEdges, visitEdges, hagree.directSupertypes hc]
  refine List.foldl_ext _ _ _ fun s e he => ?_
  exact hvisit _ ((hregion.edge c hc e he).subst s.acc) s

theorem covariantHandler_agree {visit visit' : Ty → Visit Substitution → Visit Substitution}
    (hvisit : ∀ t : Ty, t.Within R → ∀ s, visit' t s = visit t s) (ht : t.Within R)
    (s : Visit Substitution) :
    env'.covariantHandler visit' t s = env.covariantHandler visit t s := by
  cases ht with
  | cls hc => exact visitEdges_agree hregion hagree hvisit hc s
  | @param owner raw args howner hraw =>
      simp only [covariantHandler, hagree.parameters hraw]
      rw [visitEdges_agree hregion hagree hvisit hraw]
      refine List.foldl_ext _ _ _ fun s o ho => ?_
      exact hvisit o (howner o (Option.mem_toList.mp ho)) s

theorem covariantly_agree (ht : t.Within R) : env'.covariantly t = env.covariantly t := by
  refine congrArg Visit.acc ?_
  exact Visit.within_congr (fun visit visit' hvisit t ht s =>
    covariantHandler_agree hregion hagree hvisit ht s) _ ht _

end

end Env

/-! ## Tokens -/

/-- What is collected for several items depends on what is collected for each. -/
theorem CollectM.highest_congr {α : Type} {collect collect' : α → CollectM Nat} {items : List α}
    (h : ∀ x ∈ items, collect' x = collect x) (base : Nat) :
    highest collect' base items = highest collect base items := by
  induction items generalizing base with
  | nil => rfl
  | cons x items ih =>
      obtain ⟨hx, hrest⟩ := List.forall_mem_cons.mp h
      rw [highest, highest, List.foldlM_cons, List.foldlM_cons, hx]
      exact bind_congr fun above => ih hrest above

namespace Token

open Env

variable {env env' : Env} {R : ClassRef → Prop} {c : ClassRef} {token : Token}

section

variable (hregion : env.Region R) (hagree : env.Agrees env' R) (ht : token.type.Within R)

include hregion hagree ht

theorem superclass?_agree : token.superclass? env' = token.superclass? env := by
  obtain ⟨c, hc, hR⟩ := ht.raw
  rw [superclass?, superclass?, directSuperclass?, directSuperclass?, upperBounds?_of_raw? hc,
    upperBounds?_of_raw? hc, rawType, rawType, hagree.erase, erase_of_raw? hc]
  simp only [hagree.superclass? hR, covariantly_agree hregion hagree ht]

theorem interfaces_agree : token.interfaces env' = token.interfaces env := by
  obtain ⟨c, hc, hR⟩ := ht.raw
  rw [interfaces, interfaces, directInterfaces, directInterfaces, upperBounds?_of_raw? hc,
    upperBounds?_of_raw? hc, rawType, rawType, hagree.erase, erase_of_raw? hc]
  simp only [hagree.interfaces hR, covariantly_agree hregion hagree ht]

variable (hraw : (token.rawType env).isArray = false)
  (hform : ∀ c ∈ token.type.class?, env'.classes.genericForm c = env.classes.genericForm c)

include hraw hform

theorem elementAt?_agree (c : ClassRef) : token.elementAt? env' c = token.elementAt? env c := by
  rw [elementAt?, elementAt?, rawType, rawType, hagree.erase, supertype, supertype,
    supertype_agree hregion hagree ht hraw hform]

theorem collectAncestor_agree (depth : Nat) (hc : R c) :
    token.collectAncestor env' depth c = token.collectAncestor env depth c := by
  induction depth generalizing c with
  | zero => rfl
  | succ depth ih =>
      rw [collectAncestor, collectAncestor, elementAt?_agree hregion hagree ht hraw hform,
        hagree.interfaces hc, hagree.superclass? hc]
      cases token.elementAt? env c with
      | none => rfl
      | some element =>
          refine congrArg (CollectM.record element) (CollectM.highest_congr (fun e he => ?_) _)
          rw [hagree.erase]
          exact ih (hregion.rawSupertypes hc _ (mem_rawSupertypes he))

theorem closure_agree : token.closure env' = token.closure env := by
  obtain ⟨c, hc, hR⟩ := ht.raw
  have hcollect : token.collect env' (Limits.closureDepth + 1) =
      token.collect env (Limits.closureDepth + 1) := by
    rw [collect, collect, upperBounds?_of_raw? hc, upperBounds?_of_raw? hc, rawType, rawType,
      hagree.erase, erase_of_raw? hc]
    exact collectAncestor_agree hregion hagree ht hraw hform _ hR
  rw [closure, closure, collection, collection, hcollect]

end

end Token

end Generics
