import Generics.Proofs.Instances
import Generics.Proofs.Places
import Generics.Proofs.Plans
import Generics.Proofs.RoundTrip

/-!
Views of types with wider arguments. Where the arguments of one instance of a
class are contained in those of another, the second accepts the first. So does
the view of the second as an ancestor, as long as the arguments that differ come
out as arguments of the view, or as arrays of these: deeper inside an argument types
are compared for equality, unless an upper bound opens it again.
-/

namespace Generics

open Ty (Same)

namespace Env

variable {env : Env} {s t u v : Ty} {c d target : ClassRef} {σ τ : Substitution}

section

open Subtyping

/-! ## Arguments and arrays -/

/-- An argument that is accepted as contained in another one. -/
abbrev ArgumentWithin (env : Env) : Ty → Ty → Prop :=
  Contained fun a b => Accepted env [] (.ask a b)

/-- Equal types, or types other than wildcards of which the second takes the first. -/
def Taken (env : Env) (s t : Ty) : Prop :=
  Same s t ∨ s.isWildcard = false ∧ t.isWildcard = false ∧ Accepted env [] (.ask s t)

theorem Taken.accepted (h : env.Taken s t) : Accepted env [] (.ask s t) := by
  rcases h with hsame | ⟨-, -, h⟩
  · exact .same hsame
  · exact h

theorem Taken.arrayOf (hs : s.Writable) (h : env.Taken s t) : env.Taken s.arrayOf t.arrayOf := by
  rcases h with hsame | ⟨hswild, htwild, h⟩
  · exact Or.inl (Ty.same_arrayOf hs hsame)
  · exact Or.inr ⟨(Ty.isWildcard_arrayOf s).trans hswild, (Ty.isWildcard_arrayOf t).trans htwild,
      accepted_arrayOf hswild htwild (fun _ => hs) h⟩

/-- What is put into arrays: a written type that the factory could have built. -/
structure Element (t : Ty) : Prop where
  writable : t.Writable
  valid : t.Valid

theorem Element.arrayOf (h : Element t) : Element t.arrayOf :=
  ⟨Ty.written_arrayOf (fun _ _ => trivial) h.writable, Ty.valid_arrayOf h.valid⟩

theorem Element.bounds {upper lower : List Ty} (h : Element (.wild upper lower)) :
    (∀ b ∈ upper, b.Writable ∧ b.isWildcard = false) ∧
      ∀ b ∈ lower, b.Writable ∧ b.isWildcard = false := by
  obtain ⟨hwritable, hvalid⟩ := h
  obtain ⟨hupper, hlower⟩ : (∀ b ∈ upper, b.Writable) ∧ ∀ b ∈ lower, b.Writable := by
    cases hwritable with
    | wildUpper hu => exact ⟨List.forall_mem_singleton.mpr hu, nofun⟩
    | wildLower hu hl => exact ⟨List.forall_mem_singleton.mpr hu, List.forall_mem_singleton.mpr hl⟩
  cases hvalid with
  | wild _ _ hupperFit hlowerFit =>
      exact ⟨fun b hb => ⟨hupper b hb, (hupperFit b hb).2⟩,
        fun b hb => ⟨hlower b hb, (hlowerFit b hb).2⟩⟩

/-- What is below a bound has its array below the array of the bound. -/
theorem accepted_arrayOf_left (hs : Element s) (ht : t.isWildcard = false)
    (h : Accepted env [] (.ask s t)) : Accepted env [] (.ask s.arrayOf t.arrayOf) := by
  have harray : t.arrayOf.isWildcard = false := (Ty.isWildcard_arrayOf t).trans ht
  have hupper {u : Ty} {lower : List Ty} (hs : Element (.wild [u] lower))
      (h : Accepted env [] (.ask (.wild [u] lower) t)) :
      Accepted env [] (.ask u.arrayOf t.arrayOf) := by
    obtain ⟨hu, huwild⟩ := hs.bounds.1 u List.mem_cons_self
    exact accepted_arrayOf huwild ht (fun _ => hu) ((accepted_upper huwild ht).mp h)
  have hwild {u : Ty} {lower : List Ty} (hs : Element (.wild [u] lower)) :
      u.arrayOf.isWildcard = false :=
    (Ty.isWildcard_arrayOf u).trans (hs.bounds.1 u List.mem_cons_self).2
  cases hs.writable with
  | wildUpper _ =>
      rw [Ty.arrayOf_wildUpper]
      exact (accepted_upper (hwild hs) harray).mpr (hupper hs h)
  | wildLower _ _ =>
      rw [Ty.arrayOf_wildLower]
      exact (accepted_upper (hwild hs) harray).mpr (hupper hs h)
  | _ => exact accepted_arrayOf rfl ht (fun _ => hs.writable) h

theorem accepted_arrayOf_right (hs : s.Writable) (hswild : s.isWildcard = false) (ht : Element t)
    (h : Accepted env [] (.ask s t)) : Accepted env [] (.ask s.arrayOf t.arrayOf) := by
  have harray : s.arrayOf.isWildcard = false := (Ty.isWildcard_arrayOf s).trans hswild
  cases ht.writable with
  | wildUpper _ => exact absurd h (not_accepted_upper hswild)
  | @wildLower _ l _ _ =>
      have hl := (ht.bounds.2 l List.mem_cons_self).2
      rw [Ty.arrayOf_wildLower, accepted_lower harray ((Ty.isWildcard_arrayOf l).trans hl)]
      exact accepted_arrayOf hswild hl (fun _ => hs) ((accepted_lower hswild hl).mp h)
  | _ => exact accepted_arrayOf hswild rfl (fun _ => hs) h

/-- An array is contained where its component is contained in the component. -/
theorem ArgumentWithin.arrayOf (hs : Element s) (ht : Element t) (h : env.ArgumentWithin s t) :
    env.ArgumentWithin s.arrayOf t.arrayOf := by
  cases h with
  | equal h => exact .equal (Ty.same_arrayOf hs.writable h)
  | bounds hupper hlower =>
      obtain ⟨hupperBound, hlowerBound⟩ := ht.bounds
      cases ht.writable with
      | @wildUpper u _ =>
          have hu := (hupperBound u List.mem_cons_self).2
          refine .bounds (List.forall_mem_singleton.mpr ?_) (List.forall_mem_nil _)
          exact accepted_arrayOf_left hs hu (hupper u List.mem_cons_self)
      | @wildLower u l _ _ =>
          have hu := (hupperBound u List.mem_cons_self).2
          obtain ⟨hl, hlwild⟩ := hlowerBound l List.mem_cons_self
          refine .bounds (List.forall_mem_singleton.mpr ?_) (List.forall_mem_singleton.mpr ?_)
          · exact accepted_arrayOf_left hs hu (hupper u List.mem_cons_self)
          · exact accepted_arrayOf_right hl hlwild hs (hlower l List.mem_cons_self)

theorem ownerPlan_param (viewOwner owner : Ty) (raw raw' : ClassRef) (args : List Ty) :
    ownerPlan env (.param (some viewOwner) raw' args) (some owner) raw =
      if env.classes.isStatic raw then .answer true else .ask viewOwner owner := rfl

/-- A view is accepted by a type with wider arguments and a wider owner. -/
theorem accepted_viewPlan {owner owner' : Option Ty} {raw : ClassRef} {args args' : List Ty}
    (howner : Option.Rel (fun a b => Accepted env [] (.ask a b)) owner owner')
    (hargs : List.Forall₂ env.ArgumentWithin args args') (held : List (Ty × Ty)) :
    Accepted env held (viewPlan env (.param owner raw args) owner' raw args') := by
  have hheld {p : Plan} (h : Accepted env [] p) : Accepted env held p :=
    h.mono (List.forall_mem_nil _)
  have hlength : ¬(viewArgs env raw (.param owner raw args)).length ≠ args'.length :=
    not_not_intro hargs.length_eq
  rw [viewPlan, if_neg hlength]
  refine hheld (.both (accepted_all.mpr (List.forall_mem_map.mpr ?_)) ?_)
  · exact fun pair hpair => accepted_containsPlan.mpr (List.forall₂_zip hargs hpair)
  · cases howner with
    | none => exact .answer
    | some h =>
        rw [ownerPlan_param]
        split
        · exact .answer
        · exact h

theorem viewAs_param {owner : Option Ty} {raw : ClassRef} {args : List Ty}
    (hroot : raw.isObject = false) :
    env.viewAs (.param owner raw args) raw = .found (.param owner raw args) := by
  have herase : env.erase (.param owner raw args) = raw := erase_of_raw? rfl
  simp only [viewAs, viewStart, hroot, herase, BEq.rfl, Bool.false_and, Bool.false_eq_true,
    if_false, if_true]

/-- A type takes a type of the same class with narrower arguments. -/
theorem accepted_param {owner owner' : Option Ty} {raw : ClassRef} {args args' : List Ty}
    (hroot : raw.isObject = false)
    (howner : Option.Rel (fun a b => Accepted env [] (.ask a b)) owner owner')
    (hargs : List.Forall₂ env.ArgumentWithin args args') :
    Accepted env [] (.ask (.param owner raw args) (.param owner' raw args')) := by
  apply Accepted.rule
  have herase : env.erase (.param owner raw args) = raw := erase_of_raw? rfl
  have hbelow : env.isSubclass raw raw = true := isSubclass_of_name rfl
  have hplan : rulePlan env (.param owner raw args) (.param owner' raw args') =
      viewPlan env (.param owner raw args) owner' raw args' := by
    change parameterizedPlan env (.param owner raw args) owner' raw args' = _
    rw [parameterizedPlan, herase, hbelow, viewAs_param hroot]
    rfl
  rw [hplan]
  exact accepted_viewPlan howner hargs _

/-! ## Types that widen -/

/-- Where a type stands: by itself, or as an argument. -/
inductive Standing where
  | whole
  | argument

/-- Types that get wider, or stay equal, when one substitution takes the place of another
one. What differs is an argument of the type, or of an owner, of the component of an array
or of an upper bound, and is a variable there or an array of it. -/
inductive Widens (σ τ : Substitution) : Standing → Ty → Prop where
  | same {standing t} (h : Same (t.subst σ) (t.subst τ)) : Widens σ τ standing t
  | param {owner raw args} (hroot : raw.isObject = false)
      (howner : ∀ o ∈ owner, Widens σ τ .whole o) (hargs : ∀ a ∈ args, Widens σ τ .argument a) :
      Widens σ τ .whole (.param owner raw args)
  | array {component} (h : Widens σ τ .whole component) : Widens σ τ .whole (.array component)
  | upper {bound} (h : Widens σ τ .whole bound) : Widens σ τ .argument (.wild [bound] [])
  | replaced (n : Nat) (v : TyVar) : Widens σ τ .argument (Ty.array^[n] (.var v))

/-- Types to put in, each contained in the one that takes its place. -/
structure Wider (env : Env) (σ τ : Substitution) : Prop where
  narrow : ∀ v, Element ((Ty.var v).subst σ)
  wide : ∀ v, Element ((Ty.var v).subst τ)
  contains : ∀ v, (env.checkContains ((Ty.var v).subst σ) ((Ty.var v).subst τ)).ask = true
  keepsNarrow : env.KeepsForeign σ
  keepsWide : env.KeepsForeign τ

theorem writable_of_elements (h : ∀ v, Element ((Ty.var v).subst σ)) : σ.Writable := by
  intro v t hget
  have hv := (h v).writable
  rwa [Ty.subst_var, hget] at hv

theorem subst_arrays (n : Nat) (t : Ty) (σ : Substitution) :
    (Ty.array^[n] t).subst σ = Ty.arrayOf^[n] (t.subst σ) := by
  induction n with
  | zero => rfl
  | succ n ih =>
      rw [Function.iterate_succ_apply', Function.iterate_succ_apply', Ty.subst_array, ih]

theorem argumentWithin_arrays (n : Nat) (hs : Element s) (ht : Element t)
    (h : env.ArgumentWithin s t) :
    Element (Ty.arrayOf^[n] s) ∧ Element (Ty.arrayOf^[n] t) ∧
      env.ArgumentWithin (Ty.arrayOf^[n] s) (Ty.arrayOf^[n] t) := by
  induction n with
  | zero => exact ⟨hs, ht, h⟩
  | succ n ih =>
      obtain ⟨hs, ht, h⟩ := ih
      simp only [Function.iterate_succ_apply']
      exact ⟨hs.arrayOf, ht.arrayOf, h.arrayOf hs ht⟩

theorem accepted_owner {owner : Option Ty}
    (h : ∀ o ∈ owner, env.Taken (o.subst σ) (o.subst τ)) :
    Option.Rel (fun a b => Accepted env [] (.ask a b)) (owner.map (Ty.subst σ))
      (owner.map (Ty.subst τ)) := by
  cases owner with
  | none => exact .none
  | some o => exact .some (h o rfl).accepted

theorem argumentWithin_args {args : List Ty}
    (h : ∀ a ∈ args, env.ArgumentWithin (a.subst σ) (a.subst τ)) :
    List.Forall₂ env.ArgumentWithin (args.map (Ty.subst σ)) (args.map (Ty.subst τ)) := by
  rw [List.forall₂_map_left_iff, List.forall₂_map_right_iff, List.forall₂_same]
  exact h

/-- What is asked of a type that widens, where it stands. -/
def Standing.Holds (env : Env) (s t : Ty) : Standing → Prop
  | whole => env.Taken s t
  | argument => env.ArgumentWithin s t

theorem Widens.holds {standing : Standing} (h : Widens σ τ standing t) (hwider : env.Wider σ τ)
    (ht : t.Writable) : standing.Holds env (t.subst σ) (t.subst τ) := by
  have hσ := writable_of_elements hwider.narrow
  -- equality is kept apart from acceptance, since a bound may not be a wildcard
  induction h with
  | @same standing t h =>
      cases standing with
      | whole => exact Or.inl h
      | argument => exact .equal h
  | @param owner raw args hroot _ _ ihowner ihargs =>
      cases ht with
      | param howner _ hargs =>
          rw [Ty.subst_param, Ty.subst_param]
          refine Or.inr ⟨rfl, rfl, accepted_param hroot ?_ ?_⟩
          · exact accepted_owner fun o ho => ihowner o ho (howner o ho)
          · exact argumentWithin_args fun a ha => ihargs a ha (hargs a ha)
  | array _ ih =>
      cases ht with
      | array ht =>
          rw [Ty.subst_array, Ty.subst_array]
          exact Taken.arrayOf (Ty.writable_subst ht fun v _ => hσ.image v) (ih ht)
  | @upper bound _ ih =>
      cases ht with
      | wildUpper ht =>
          rcases ih ht with hsame | ⟨hs, ht, h⟩
          · exact .equal (Ty.same_wildUpper.mpr ⟨_, rfl, hsame⟩)
          · refine .bounds (List.forall_mem_singleton.mpr ?_) (List.forall_mem_nil _)
            exact (accepted_upper hs ht).mpr h
  | replaced n v =>
      have hv := accepted_containsPlan.mp (accepted_of_contains (hwider.contains v))
      change env.ArgumentWithin _ _
      rw [subst_arrays, subst_arrays]
      exact (argumentWithin_arrays n (hwider.narrow v) (hwider.wide v) hv).2.2

/-! ## Views that widen -/

/-- The arguments and the owner of a type that widens. -/
theorem Widens.accepted_view {owner : Option Ty} {raw : ClassRef} {args : List Ty}
    (h : Widens σ τ .whole (.param owner raw args)) (hwider : env.Wider σ τ)
    (ht : (Ty.param owner raw args).Writable) (held : List (Ty × Ty)) :
    Accepted env held (viewPlan env ((Ty.param owner raw args).subst σ) (owner.map (Ty.subst τ))
      raw (args.map (Ty.subst τ))) := by
  rw [Ty.subst_param]
  cases h with
  | same h =>
      rw [Ty.subst_param, Ty.subst_param] at h
      obtain ⟨_, _, _, heq, -, howner, hargs⟩ := Ty.same_param.mp h
      cases heq
      refine accepted_viewPlan ?_ (hargs.imp fun _ _ => .equal) held
      generalize owner.map (Ty.subst σ) = o, owner.map (Ty.subst τ) = o' at howner
      cases howner with
      | none => exact .none
      | some h => exact .some (.same h)
  | param hroot howner hargs =>
      cases ht with
      | param hownerWritable _ hargsWritable =>
          refine accepted_viewPlan ?_ ?_ held
          · exact accepted_owner fun o ho => (howner o ho).holds hwider (hownerWritable o ho)
          · exact argumentWithin_args fun a ha => (hargs a ha).holds hwider (hargsWritable a ha)

/-- The view of a type with wider arguments is asked for with yes. -/
theorem accepted_view (hplain : env.classes.PlainEdges) (hs : s.raw? = some c)
    (hc : c.isArray = false) (htarget : target.isArray = false)
    (hsub : env.isSubclass c target = true) {shape : Ty} (hwritable : shape.Writable)
    (hraw : HasRaw shape) (hview : env.View s target (shape.subst σ))
    (hwider : env.Wider σ τ) (hshape : Widens σ τ .whole shape) :
    Accepted env [] (.ask s (shape.subst τ)) := by
  obtain ⟨hself, -, hbelow⟩ := viewAs_erase_of_view hplain hs hc htarget hsub hview
  obtain ⟨d, hd, -⟩ := hraw
  rw [erase_of_raw? (raw?_subst hd σ)] at hself hbelow
  apply Accepted.rule
  cases shape with
  | cls d' =>
      cases hd
      have hplan : rulePlan env s ((Ty.cls d).subst τ) = .answer (env.isSubclass c d) :=
        rulePlan_cls hs d
      rw [hplan, hbelow]
      exact .answer
  | param owner raw args =>
      cases hd
      have hfound : env.viewAs s target = .found ((Ty.param owner d args).subst σ) ∨
          env.viewAs s target = .outOfSteps := by
        apply viewAs_of_view (viewStep_hasRaw (rawEdges_of_plain hplain) target) _ hview
        intro start hstart
        rw [viewStart_eq_climbStart hs hc] at hstart
        cases hstart
        exact ⟨c, raw?_climbStart hs hc, hc⟩
      have herase : env.erase s = c := erase_of_raw? hs
      rw [Ty.subst_param, rulePlan_param hs, parameterizedPlan, herase, hbelow, hself]
      rcases hfound with hfound | hout
      · rw [hfound]
        exact hshape.accepted_view hwider hwritable _
      · rw [hout]
        exact .cut
  | _ => cases hd

/-- What a type is seen as accepts the instances with narrower arguments, if the view of
the generic form widens as the arguments do. -/
theorem isAssignable_of_wider (hplain : env.classes.PlainEdges) (hedges : env.InstanceEdges)
    (ht : env.Instance t) (hwider : env.Wider σ τ)
    (hshape : ∀ shape, env.View t target shape → Widens σ τ .whole shape)
    (hv : env.supertype (t.subst τ) target = .ok v)
    (hhits : ((env.checkAssignable v (t.subst σ)).run .fresh).2.hits = 0) :
    env.isAssignable v (t.subst σ) = true := by
  have hσ := writable_of_elements hwider.narrow
  have hτ := writable_of_elements hwider.wide
  obtain ⟨c, hraw, hc, -⟩ := ht.raw
  obtain ⟨htarget, hsub, hfound⟩ := viewAs_of_supertype (raw?_subst hraw τ) hc hv
  -- both instances are seen as instances of one shape
  obtain ⟨shape, hview, rfl⟩ := (view_instance_iff hplain hedges hτ hwider.keepsWide ht).mp
    (view_of_raw? (rawEdges_of_plain hplain) (raw?_subst hraw τ) hc hfound)
  have hnarrow := (view_instance_iff hplain hedges hσ hwider.keepsNarrow ht).mpr ⟨shape, hview, rfl⟩
  obtain ⟨-, hshapeRaw, -⟩ := viewAs_erase_of_view hplain hraw hc htarget hsub hview
  have haccepted := accepted_view hplain (raw?_subst hraw σ) hc htarget hsub
    (view_writable hplain hedges ht hview) hshapeRaw hnarrow hwider (hshape shape hview)
  have hwild : (t.subst σ).isWildcard = false := isWildcard_of_raw? (raw?_subst hraw σ)
  have hwild' : (shape.subst τ).isWildcard = false := by
    obtain ⟨d, hd, -⟩ := hshapeRaw
    exact isWildcard_of_raw? (raw?_subst hd τ)
  rw [checkAssignable_eq hwild' hwild] at hhits
  exact isAssignable_of_subtype hwild hwild' (isSubtype_of_accepted haccepted hhits)

end

/-! ## Lists of arrays and lists of lists -/

def integerType : Ty := .cls (.named "java.lang.Integer" .ordinary)

def rowsClass : ClassRef := .named "Rows" .ordinary

def rowsVar : TyVar := ⟨1, .ofClass rowsClass, "E"⟩

def nestClass : ClassRef := .named "Nest" .ordinary

def nestVar : TyVar := ⟨2, .ofClass nestClass, "E"⟩

/-- A list of the arrays over its argument, and a list of the lists over its argument. -/
def nestEnv : Env :=
  ⟨[(ClassDecl.of listClass).withParameters [listVar], .of numberClass,
    (ClassDecl.of (.named "java.lang.Integer" .ordinary)).extending (.cls numberClass),
    ((ClassDecl.of rowsClass).withParameters [rowsVar]).implementing
      (.param none listClass [.array (.var rowsVar)]),
    ((ClassDecl.of nestClass).withParameters [nestVar]).implementing
      (.param none listClass [.param none listClass [.var nestVar]])].foldl
      Registry.register .core, .empty⟩

def listType (arg : Ty) : Ty := .param none listClass [arg]

def rowsType (arg : Ty) : Ty := .param none rowsClass [arg]

def nestType (arg : Ty) : Ty := .param none nestClass [arg]

/-- Any kind of number. -/
def numbers : Ty := .wild [.cls numberClass] []

theorem nestEnv_supertypes :
    nestEnv.classes.decls.toList.flatMap (fun entry => entry.2.supertypes) =
      [.object, listType (listType (.var nestVar)), .object, listType (.array (.var rowsVar)),
        .cls numberClass, .object] := rfl

theorem nestEnv_plain : nestEnv.classes.PlainEdges := by decide

theorem get?_single {x v : TyVar} {a u : Ty} (h : Substitution.get? ⟨[(x, a)]⟩ v = some u) :
    u = a := by
  obtain ⟨_, hmem, -⟩ := Substitution.mem_of_get? h
  exact (Prod.mk.inj (List.mem_singleton.mp hmem)).2

theorem nestEnv_instances : nestEnv.InstanceEdges := by
  have hlist {arg : Ty} (harg : arg.Writable) :
      ∃ d, nestEnv.classes.IsInstance d (listType arg) := by
    refine ⟨listClass, ⟨[(listVar, arg)]⟩, ?_, rfl⟩
    intro v t hget
    rw [get?_single hget]
    exact harg
  have hcls {d : ClassRef} (h : nestEnv.classes.genericForm d = .cls d) :
      ∃ d', nestEnv.classes.IsInstance d' (.cls d) := ⟨d, (Registry.isInstance_cls h).mpr rfl⟩
  refine fun c hc => Registry.forall_edges (Registry.forall_supertypes nestEnv_supertypes ?_) hc
  simp only [List.forall_mem_cons]
  exact ⟨hcls rfl, hlist (.param nofun trivial (List.forall_mem_singleton.mpr (.var trivial))),
    hcls rfl, hlist (.array (.var trivial)), hcls rfl, hcls rfl, List.forall_mem_nil _⟩

theorem nestEnv_scoped : nestEnv.ScopedEdges := by
  refine scopedEdges_of_check (by decide)
    (Registry.forall_supertypes nestEnv_supertypes ?_)
  have hlist {arg : Ty} (harg : arg.Built) : (listType arg).Built :=
    .param nofun (List.forall_mem_singleton.mpr harg)
  simp only [List.forall_mem_cons]
  exact ⟨.cls _, hlist (hlist (.var _)), .cls _, hlist (.array (.var _) rfl), .cls _, .cls _,
    List.forall_mem_nil _⟩

theorem subst_single (x v : TyVar) (a : Ty) :
    (Ty.var v).subst ⟨[(x, a)]⟩ = a ∨ (Ty.var v).subst ⟨[(x, a)]⟩ = .var v := by
  rw [Ty.subst_var]
  cases hget : Substitution.get? ⟨[(x, a)]⟩ v with
  | none => exact Or.inr rfl
  | some u => exact Or.inl (get?_single hget)

theorem checkContains_self (env : Env) (t : Ty) : (env.checkContains t t).ask = true := by
  unfold checkContains Subtyping.contains
  rw [if_pos (Ty.same_refl t)]
  rfl

/-- Integers in the place of a parameter, and numbers of any kind. -/
theorem wider_numbers (x : TyVar) :
    nestEnv.Wider ⟨[(x, integerType)]⟩ ⟨[(x, numbers)]⟩ where
  narrow := by
    intro v
    rcases subst_single x v integerType with h | h
    all_goals rw [h]
    · exact ⟨.cls trivial, Ty.valid_cls _⟩
    · exact ⟨.var trivial, .var v⟩
  wide := by
    intro v
    rcases subst_single x v numbers with h | h
    all_goals rw [h]
    · exact ⟨.wildUpper (.cls trivial), .upper (Ty.valid_cls _) ⟨rfl, rfl⟩⟩
    · exact ⟨.var trivial, .var v⟩
  contains := by
    intro v
    simp only [Ty.subst_var, Substitution.get?_cons]
    split
    · exact show (nestEnv.checkContains integerType numbers).ask = true by decide
    · exact checkContains_self nestEnv (.var v)
  keepsNarrow := keepsForeign_of_scoped nestEnv_scoped _
  keepsWide := keepsForeign_of_scoped nestEnv_scoped _

/-- The lists of arrays of any kind of numbers take the rows of integers. -/
theorem isAssignable_rows :
    ∃ v, nestEnv.supertype (rowsType numbers) listClass = .ok v ∧
      nestEnv.isAssignable v (rowsType integerType) = true := by
  have hview : nestEnv.viewAs (rowsType (.var rowsVar)) listClass =
      .found (listType (.array (.var rowsVar))) := rfl
  have hrows : nestEnv.Instance (rowsType (.var rowsVar)) :=
    ⟨rowsClass, rfl, Registry.isInstance_genericForm rowsClass⟩
  have hup : nestEnv.supertype ((rowsType (.var rowsVar)).subst ⟨[(rowsVar, numbers)]⟩) listClass =
      .ok (listType numbers.arrayOf) := rfl
  have hshape : ∀ shape, nestEnv.View (rowsType (.var rowsVar)) listClass shape →
      Widens ⟨[(rowsVar, integerType)]⟩ ⟨[(rowsVar, numbers)]⟩ .whole shape := by
    intro shape hshape
    obtain rfl := view_unique (view_of_raw? (rawEdges_of_plain nestEnv_plain) rfl rfl hview) hshape
    exact .param (by decide) nofun (List.forall_mem_singleton.mpr (.replaced 1 rowsVar))
  have htakes := isAssignable_of_wider nestEnv_plain nestEnv_instances hrows
    (wider_numbers rowsVar) hshape hup (by decide)
  exact ⟨_, hup, htakes⟩

theorem nestType_coherent (arg : Ty) : nestEnv.Coherent (nestType arg) := by
  apply coherent_of_closed
    (P := fun t => t = nestType arg ∨ t = .object ∨ t = listType (listType arg)) (Or.inl rfl)
  · rintro t (rfl | rfl | rfl) edge hedge
    · have hedges : edge ∈ [Ty.object, listType (listType (.var nestVar))] := hedge
      rcases List.mem_cons.mp hedges with rfl | hrest
      · exact Or.inr (Or.inl rfl)
      · obtain rfl := List.mem_singleton.mp hrest
        exact Or.inr (Or.inr rfl)
    · exact absurd (show edge ∈ [] from hedge) List.not_mem_nil
    · exact absurd (show edge ∈ [] from hedge) List.not_mem_nil
  · rintro u v (rfl | rfl | rfl) (rfl | rfl | rfl) h
    · exact Ty.same_refl _
    · exact absurd (show (nestClass == ClassRef.object) = true from h) (by decide)
    · exact absurd (show (nestClass == listClass) = true from h) (by decide)
    · exact absurd (show (ClassRef.object == nestClass) = true from h) (by decide)
    · exact Ty.same_refl _
    · exact absurd (show (ClassRef.object == listClass) = true from h) (by decide)
    · exact absurd (show (listClass == nestClass) = true from h) (by decide)
    · exact absurd (show (listClass == ClassRef.object) = true from h) (by decide)
    · exact Ty.same_refl _

/-- A list of lists of any kind of numbers takes no list of lists of integers, although
the types that these are views of take each other. -/
theorem isAssignable_nest :
    ¬∀ (env : Env) (t v : Ty) (target : ClassRef) (σ τ : Substitution),
      env.classes.PlainEdges → env.InstanceEdges → env.Instance t → env.Coherent (t.subst σ) →
      env.Coherent (t.subst τ) → env.Wider σ τ → env.supertype (t.subst τ) target = .ok v →
      ((env.checkAssignable v (t.subst σ)).run .fresh).2.hits = 0 →
      env.isAssignable v (t.subst σ) = true := by
  intro hclaim
  have hnest : nestEnv.Instance (nestType (.var nestVar)) :=
    ⟨nestClass, rfl, Registry.isInstance_genericForm nestClass⟩
  have htakes := hclaim nestEnv (nestType (.var nestVar)) (listType (listType numbers)) listClass
    ⟨[(nestVar, integerType)]⟩ ⟨[(nestVar, numbers)]⟩ nestEnv_plain nestEnv_instances hnest
    (nestType_coherent integerType) (nestType_coherent numbers) (wider_numbers nestVar) rfl
    (by decide)
  exact absurd htakes (by decide)

end Env

end Generics
