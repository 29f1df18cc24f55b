import Generics.SupertypeView
import Generics.Proofs.Ancestry
import Generics.Proofs.Forms

/-!
The view of a type as a raw ancestor, without a bound on the steps of the
walk: the nearest one along the instantiated edges. The walk with a budget of
steps finds this view or stops for want of steps, on types for which equal
ones are equally far from the ancestor.
-/

namespace Generics

namespace Env

variable {env : Env}

/-! ## Carried bindings -/

/-- The bindings that a type carries, in the order in which they count. -/
def carriedPairs (env : Env) : Ty → List (TyVar × Ty)
  | .param (some owner) raw args =>
    (env.classes.parameters raw).zip args ++ env.carriedPairs owner
  | .param none raw args => (env.classes.parameters raw).zip args
  | _ => []
termination_by structural t => t

theorem get?_addCarried (σ : Substitution) (t : Ty) (v : TyVar) :
    (env.addCarried σ t).get? v =
      (σ.get? v).or (Substitution.get? ⟨env.carriedPairs t⟩ v) := by
  induction t using Ty.parts generalizing σ with
  | param owner raw args howner _ =>
      cases owner with
      | none =>
          simp only [addCarried, carriedPairs, Substitution.get?_insertAllNew]
      | some owner =>
          simp only [addCarried, carriedPairs, howner owner rfl,
            Substitution.get?_insertAllNew, Substitution.get?_append,
            Option.or_assoc]
  | _ => simp [addCarried, carriedPairs, Substitution.get?]

theorem get?_carried (t : Ty) (v : TyVar) :
    (env.carried t).get? v = Substitution.get? ⟨env.carriedPairs t⟩ v := by
  rw [carried, get?_addCarried]
  rfl

/-- What holds of the arguments of a type and of its owners holds of all that it carries. -/
theorem carriedPairs_forall {P Q : Ty → Prop}
    (hparam : ∀ owner raw args, P (.param owner raw args) →
      (∀ t ∈ owner, P t) ∧ ∀ t ∈ args, Q t)
    {t : Ty} (ht : P t) : ∀ pair ∈ env.carriedPairs t, Q pair.2 := by
  induction t using Ty.parts with
  | param owner raw args howner _ =>
      obtain ⟨houter, hargs⟩ := hparam owner raw args ht
      have hzip : ∀ pair ∈ (env.classes.parameters raw).zip args, Q pair.2 :=
        fun pair hpair => hargs _ (List.of_mem_zip hpair).2
      cases owner with
      | none => exact hzip
      | some owner =>
          intro pair hpair
          rcases List.mem_append.mp hpair with hown | hpair
          · exact hzip pair hown
          · exact howner owner rfl (houter owner rfl) pair hpair
  | _ => simp [carriedPairs]

theorem carried_forall {Q : Ty → Prop} {t : Ty} (h : ∀ pair ∈ env.carriedPairs t, Q pair.2)
    {v : TyVar} (hv : Q (.var v)) : Q ((Ty.var v).subst (env.carried t)) := by
  rw [Ty.subst_var, get?_carried]
  cases hget : Substitution.get? ⟨env.carriedPairs t⟩ v with
  | none => exact hv
  | some u =>
      obtain ⟨v', hmem, -⟩ := Substitution.mem_of_get? hget
      exact h _ hmem

theorem zip_same (vs : List TyVar) {ts us : List Ty} (h : List.Forall₂ Ty.Same ts us) :
    List.Forall₂ (fun p q => p.1 = q.1 ∧ Ty.Same p.2 q.2) (vs.zip ts) (vs.zip us) := by
  induction h generalizing vs with
  | nil => simp
  | cons hhead _ ih =>
      cases vs with
      | nil => simp
      | cons v vs => exact .cons ⟨rfl, hhead⟩ (ih vs)

/-- Equal types carry equal bindings. -/
theorem carriedPairs_same {s t : Ty} (h : Ty.Same s t) :
    List.Forall₂ (fun p q => p.1 = q.1 ∧ Ty.Same p.2 q.2)
      (env.carriedPairs s) (env.carriedPairs t) := by
  induction s using Ty.parts generalizing t with
  | cls c =>
      obtain ⟨d, rfl, -⟩ := Ty.same_cls.mp h
      exact .nil
  | param owner raw args howner _ =>
      obtain ⟨owner', raw', args', rfl, hname, ho, hargs⟩ := Ty.same_param.mp h
      have hzip := zip_same (env.classes.parameters raw) hargs
      rw [Registry.parameters_of_name hname] at hzip
      cases ho with
      | none =>
          simp only [carriedPairs, Registry.parameters_of_name hname]
          exact hzip
      | some houter =>
          simp only [carriedPairs, Registry.parameters_of_name hname]
          exact List.rel_append hzip (howner _ rfl houter)
  | array component _ =>
      obtain ⟨component', rfl, -⟩ := Ty.same_array.mp h
      exact .nil
  | wild upper lower _ _ =>
      obtain ⟨_, _, rfl, -⟩ := Ty.same_wild.mp h
      exact .nil
  | var v =>
      obtain ⟨v', rfl, -⟩ := Ty.same_var.mp h
      exact .nil

theorem carried_same {s t : Ty} (h : Ty.Same s t) (v : TyVar) :
    Ty.Same ((Ty.var v).subst (env.carried s)) ((Ty.var v).subst (env.carried t)) := by
  have hget : Option.Rel Ty.Same (Substitution.get? ⟨env.carriedPairs s⟩ v)
      (Substitution.get? ⟨env.carriedPairs t⟩ v) :=
    Substitution.get?_related (carriedPairs_same h) v
  rw [Ty.subst_var, Ty.subst_var, get?_carried, get?_carried]
  generalize Substitution.get? ⟨env.carriedPairs s⟩ v = o,
    Substitution.get? ⟨env.carriedPairs t⟩ v = o' at hget
  cases hget with
  | some hu => exact hu
  | none => exact Ty.same_refl _

/-! ## Instantiated edges -/

/-- An edge of the raw class of a type, as a supertype of the type. -/
def instantiated (env : Env) (t edge : Ty) : Ty :=
  if env.isRawUse t then .cls (env.erase edge) else edge.subst (env.carried t)

theorem isRawUse_same {s t : Ty} (h : Ty.Same s t) : env.isRawUse s = env.isRawUse t := by
  cases s with
  | cls c =>
      obtain ⟨d, rfl, hname⟩ := Ty.same_cls.mp h
      simp only [isRawUse, Registry.parameters_of_name hname]
  | param owner raw args =>
      obtain ⟨_, _, _, rfl, -⟩ := Ty.same_param.mp h
      rfl
  | array component =>
      obtain ⟨_, rfl, -⟩ := Ty.same_array.mp h
      rfl
  | wild upper lower =>
      obtain ⟨_, _, rfl, -⟩ := Ty.same_wild.mp h
      rfl
  | var v =>
      obtain ⟨_, rfl, -⟩ := Ty.same_var.mp h
      rfl

theorem isRawUse_of_isInstance {c : ClassRef} {t : Ty} (h : env.classes.IsInstance c t)
    (hc : c.isArray = false) : env.isRawUse t = false := by
  rcases h.cases hc with ⟨hform, rfl⟩ | ⟨owner, args, rfl, -⟩
  · have hbare : env.classes.isBare (env.classes.formSteps env.classes.size) c = true := by
      by_contra hne
      have hparam := Registry.formWithin_of_plain env.classes
        (env.classes.formSteps env.classes.size) hc
      rw [if_neg hne] at hparam
      exact absurd (hparam.symm.trans hform) (by simp)
    simp only [Registry.isBare, Bool.and_eq_true] at hbare
    simp [Env.isRawUse, hbare.1]
  · rfl

theorem instantiatedEdges_eq (t : Ty) : env.instantiatedEdges t =
    (env.classes.directSupertypes (env.erase t)).map
      fun edge => (env.erase edge, env.instantiated t edge) := rfl

theorem instantiatedEdges_related {R : Ty → Ty → Prop} {s t : Ty}
    (hedges : env.classes.directSupertypes (env.erase s) =
      env.classes.directSupertypes (env.erase t))
    (h : ∀ edge ∈ env.classes.directSupertypes (env.erase s),
      R (env.instantiated s edge) (env.instantiated t edge)) :
    List.Forall₂ (fun p q => p.1 = q.1 ∧ R p.2 q.2)
      (env.instantiatedEdges s) (env.instantiatedEdges t) := by
  rw [instantiatedEdges_eq, instantiatedEdges_eq, ← hedges,
    List.forall₂_map_left_iff, List.forall₂_map_right_iff, List.forall₂_same]
  intro edge hedge
  exact ⟨rfl, h edge hedge⟩

theorem find?_related {α β : Type} {Q : α → β → Prop} {f : α → Bool} {g : β → Bool}
    (hfg : ∀ a b, Q a b → f a = g b) {as : List α} {bs : List β}
    (h : List.Forall₂ Q as bs) : Option.Rel Q (as.find? f) (bs.find? g) := by
  induction h with
  | nil => exact .none
  | @cons a b _ _ hab _ ih =>
      rw [List.find?_cons, List.find?_cons, hfg a b hab]
      cases g b with
      | true => exact .some hab
      | false => exact ih

theorem viewStep_related {R : Ty → Ty → Prop} {s t : Ty} (target : ClassRef)
    (h : List.Forall₂ (fun p q => p.1 = q.1 ∧ R p.2 q.2)
      (env.instantiatedEdges s) (env.instantiatedEdges t)) :
    (env.viewStep target s).Related R R (env.viewStep target t) := by
  have hkept := List.rel_filter (p := fun edge => env.isSubclass edge.1 target)
    (q := fun edge => env.isSubclass edge.1 target)
    (fun _ _ hpq => by simp [hpq.1]) h
  have hgoal := find?_related (f := fun edge => edge.1 == target)
    (g := fun edge => edge.1 == target) (fun _ _ hpq => by rw [hpq.1]) hkept
  simp only [viewStep]
  generalize List.find? _ _ = o, List.find? _ (List.filter _ (env.instantiatedEdges t)) = o'
    at hgoal
  cases hgoal with
  | some hpq => exact .goal hpq.2
  | none =>
      refine .next ?_
      rw [List.forall₂_map_left_iff, List.forall₂_map_right_iff]
      exact hkept.imp fun _ _ hpq => hpq.2

/-- The walk looks at the declared edges below the target, and puts the arguments in after. -/
theorem viewStep_eq (target : ClassRef) (t : Ty) : env.viewStep target t =
    let kept := (env.classes.directSupertypes (env.erase t)).filter
      fun edge => env.isSubclass (env.erase edge) target
    match kept.find? fun edge => env.erase edge == target with
    | some edge => .goal (env.instantiated t edge)
    | none => .next (kept.map (env.instantiated t)) := by
  simp only [viewStep, instantiatedEdges_eq, List.filter_map, List.find?_map]
  simp only [Function.comp_def]
  cases List.find? _ _ with
  | some edge => rfl
  | none => simp only [Option.map_none, List.map_map, Function.comp_def]

/-- Steps are compared by the edges that lead to the target, or below it. -/
theorem viewStep_related_kept {R S : Ty → Ty → Prop} {s t : Ty} {target : ClassRef}
    (hedges : env.classes.directSupertypes (env.erase s) =
      env.classes.directSupertypes (env.erase t))
    (hgoal : ∀ edge ∈ env.classes.directSupertypes (env.erase s),
      S (env.instantiated s edge) (env.instantiated t edge))
    (hnode : ∀ edge ∈ env.classes.directSupertypes (env.erase s),
      env.isSubclass (env.erase edge) target = true → (env.erase edge == target) = false →
      R (env.instantiated s edge) (env.instantiated t edge)) :
    (env.viewStep target s).Related R S (env.viewStep target t) := by
  rw [viewStep_eq, viewStep_eq, ← hedges]
  dsimp only
  split
  · rename_i edge hfind
    exact .goal (hgoal edge (List.mem_of_mem_filter (List.mem_of_find?_eq_some hfind)))
  · rename_i hfind
    refine .next ?_
    rw [List.forall₂_map_left_iff, List.forall₂_map_right_iff, List.forall₂_same]
    intro edge hedge
    obtain ⟨hmem, hsub⟩ := List.mem_filter.mp hedge
    exact hnode edge hmem hsub
      ((Bool.not_eq_true _).mp (List.find?_eq_none.mp hfind edge hedge))

/-- A goal is an edge to the target. -/
theorem viewStep_goal {target : ClassRef} {t u : Ty}
    (h : env.viewStep target t = .goal u) :
    ∃ edge ∈ env.classes.directSupertypes (env.erase t),
      u = env.instantiated t edge ∧ (env.erase edge == target) = true := by
  simp only [viewStep] at h
  split at h
  · rename_i raw supertype hfind
    obtain rfl : supertype = u := by simpa using h
    have hraw : (raw == target) = true := by simpa using List.find?_some hfind
    have hmem := List.mem_of_mem_filter (List.mem_of_find?_eq_some hfind)
    rw [instantiatedEdges_eq] at hmem
    obtain ⟨edge, hedge, heq⟩ := List.mem_map.mp hmem
    obtain ⟨rfl, rfl⟩ := Prod.mk.inj heq
    exact ⟨edge, hedge, rfl, hraw⟩
  · cases h

/-- The nodes are edges to classes below the target. -/
theorem viewStep_nodes {target : ClassRef} {t u : Ty}
    (h : u ∈ (env.viewStep target t).nodes) :
    ∃ edge ∈ env.classes.directSupertypes (env.erase t),
      u = env.instantiated t edge ∧ env.isSubclass (env.erase edge) target = true := by
  simp only [viewStep] at h
  split at h
  · simp [Expansion.nodes] at h
  · obtain ⟨pair, hpair, rfl⟩ := List.mem_map.mp h
    obtain ⟨hmem, hsub⟩ := List.mem_filter.mp hpair
    rw [instantiatedEdges_eq] at hmem
    obtain ⟨edge, hedge, rfl⟩ := List.mem_map.mp hmem
    exact ⟨edge, hedge, rfl, hsub⟩

/-- An edge to a class below the target is followed, unless another one leads
to the target at once. -/
theorem viewStep_of_edge {target : ClassRef} {t edge : Ty}
    (hedge : edge ∈ env.classes.directSupertypes (env.erase t))
    (hsub : env.isSubclass (env.erase edge) target = true) :
    (∃ u, env.viewStep target t = .goal u) ∨
      env.instantiated t edge ∈ (env.viewStep target t).nodes := by
  have hkept : (env.erase edge, env.instantiated t edge) ∈
      (env.instantiatedEdges t).filter fun edge => env.isSubclass edge.1 target := by
    rw [instantiatedEdges_eq]
    exact List.mem_filter.mpr ⟨List.mem_map.mpr ⟨edge, hedge, rfl⟩, hsub⟩
  simp only [viewStep]
  split
  · exact Or.inl ⟨_, rfl⟩
  · exact Or.inr (List.mem_map.mpr ⟨_, hkept, rfl⟩)

theorem viewStep_reaches {target : ClassRef} {t edge : Ty}
    (hedge : edge ∈ env.classes.directSupertypes (env.erase t))
    (hsub : env.isSubclass (env.erase edge) target = true)
    (heq : (env.erase edge == target) = true) :
    ∃ u, env.viewStep target t = .goal u := by
  have hkept : (env.erase edge, env.instantiated t edge) ∈
      (env.instantiatedEdges t).filter fun edge => env.isSubclass edge.1 target := by
    rw [instantiatedEdges_eq]
    exact List.mem_filter.mpr ⟨List.mem_map.mpr ⟨edge, hedge, rfl⟩, hsub⟩
  simp only [viewStep]
  split
  · exact ⟨_, rfl⟩
  · rename_i hnone
    exact absurd heq (List.find?_eq_none.mp hnone _ hkept)

/-- Each class above all arrays is one step above an array class. -/
theorem viewStep_arrayTop {d : ClassRef} {t : Ty} (ht : (env.erase t).isArray = true)
    (hd : d ∈ arrayTops) : ∃ u, env.viewStep d t = .goal u := by
  have hedge : Ty.cls d ∈ env.classes.directSupertypes (env.erase t) := by
    cases hc : env.erase t with
    | named _ _ =>
        rw [hc] at ht
        cases ht
    | array name component =>
        exact show Ty.cls d ∈ arrayTops.map Ty.cls from List.mem_map.mpr ⟨d, hd, rfl⟩
  have hself : (env.erase (.cls d) == d) = true := by
    rw [erase_of_raw? (c := d) rfl]
    exact BEq.rfl
  exact viewStep_reaches hedge (isSubclass_of_name rfl) hself

/-- Handles of one name are looked for alike. -/
theorem viewStep_congr {d target : ClassRef} (hd : d.isPlain = true) (htarget : target.isPlain = true)
    (hname : d.name = target.name) : env.viewStep d = env.viewStep target := by
  have hbeq : ∀ c : ClassRef, (c == d) = (c == target) := by
    intro c
    apply Bool.eq_iff_iff.mpr
    rw [ClassRef.beq_iff_name, ClassRef.beq_iff_name, hname]
  funext t
  simp only [viewStep, isSubclass_congr hd htarget hname, hbeq]

/-! ## Views -/

/-- A type seen as a raw ancestor, over a path that is as short as possible. -/
inductive View (env : Env) (t : Ty) (target : ClassRef) : Ty → Prop where
  | object (h : (target.isObject && !t.isPrimitive) = true) : View env t target .object
  | start {start} (hobject : (target.isObject && !t.isPrimitive) = false)
      (hstart : env.viewStart t = some start) (h : (env.erase start == target) = true) :
      View env t target start
  | walk {start view} (hobject : (target.isObject && !t.isPrimitive) = false)
      (hstart : env.viewStart t = some start) (hne : (env.erase start == target) = false)
      (h : Nearest (env.viewStep target) start view) : View env t target view

section

variable {P : Ty → Prop} {t view : Ty} {target : ClassRef}

theorem view_of_viewAs (hfaithful : Faithful (env.viewStep target) P)
    (hstart : ∀ start ∈ env.viewStart t, P start)
    (h : env.viewAs t target = .found view) : View env t target view := by
  unfold viewAs at h
  split at h
  · rename_i hobject
    cases h
    exact .object hobject
  · rename_i hobject
    rw [Bool.not_eq_true] at hobject
    split at h
    · cases h
    · rename_i start hs
      split at h
      · rename_i hsame
        cases h
        exact .start hobject hs hsame
      · rename_i hne
        exact .walk hobject hs ((Bool.not_eq_true _).mp hne)
          (nearest_of_search hfaithful (hstart start hs) h)

theorem viewAs_of_view (hfaithful : Faithful (env.viewStep target) P)
    (hstart : ∀ start ∈ env.viewStart t, P start) (h : View env t target view) :
    env.viewAs t target = .found view ∨ env.viewAs t target = .outOfSteps := by
  cases h with
  | object hobject =>
      left
      rw [viewAs, if_pos hobject]
  | start hobject hs hsame =>
      left
      simp only [viewAs, hobject, hs, hsame, Bool.false_eq_true, if_false, if_true]
  | walk hobject hs hne h =>
      simp only [viewAs, hobject, hs, hne, Bool.false_eq_true, if_false]
      exact search_of_nearest hfaithful (hstart _ hs) h Limits.walkSteps

theorem view_unique {view' : Ty} (h : View env t target view)
    (h' : View env t target view') : view = view' := by
  cases h with
  | object hobject =>
      cases h' with
      | object _ => rfl
      | start hobject' _ _ => simp [hobject] at hobject'
      | walk hobject' _ _ _ => simp [hobject] at hobject'
  | start hobject hs hsame =>
      cases h' with
      | object hobject' => simp [hobject'] at hobject
      | start _ hs' _ => exact Option.some.inj (hs.symm.trans hs')
      | walk _ hs' hne _ =>
          cases hs.symm.trans hs'
          simp [hsame] at hne
  | walk hobject hs hne h =>
      cases h' with
      | object hobject' => simp [hobject'] at hobject
      | start _ hs' hsame =>
          cases hs.symm.trans hs'
          simp [hsame] at hne
      | walk _ hs' _ h' =>
          cases hs.symm.trans hs'
          exact nearest_unique h h'

end

end Env

end Generics
