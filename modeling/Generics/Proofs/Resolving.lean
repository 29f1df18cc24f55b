import Generics.Proofs.Assignability
import Generics.Proofs.Elements
import Generics.Proofs.Merging
import Generics.Proofs.RoundTrip

/-!
Supertypes before and after a resolution. The steps from a type that has types
for all variables in scope are taken over by the type with other types put in,
and the walk from there may only find types equal that were different before.
So what navigation finds is resolved like the type it starts from.
-/

namespace Generics

/-- A class, or a parameterized type of a class that is no array. -/
def Ty.isNamed : Ty → Bool
  | .cls _ => true
  | .param _ raw _ => !raw.isArray
  | _ => false

/-- The declared edges lead to classes and parameterized types. -/
def Registry.NamedEdges (registry : Registry) : Prop :=
  ∀ entry ∈ registry.decls.toList, ∀ e ∈ entry.2.supertypes, e.isNamed = true

instance (registry : Registry) : Decidable registry.NamedEdges :=
  inferInstanceAs (Decidable (∀ entry ∈ registry.decls.toList,
    ∀ e ∈ entry.2.supertypes, e.isNamed = true))

/-- A declared edge leads to a class that is no array, or is an array class. -/
theorem Registry.NamedEdges.edge {registry : Registry} (h : registry.NamedEdges) {c : ClassRef}
    {e : Ty} (he : e ∈ registry.directSupertypes c) (hc : c.isArray = false) :
    Env.HasRaw e ∨ ∃ d, d.isArray = true ∧ e = .cls d := by
  have hnamed : e.isNamed = true := forall_edges h hc e he
  cases e with
  | cls d =>
      cases hd : d.isArray with
      | true => exact Or.inr ⟨d, hd, rfl⟩
      | false => exact Or.inl ⟨d, rfl, hd⟩
  | param _ raw _ => exact Or.inl ⟨raw, rfl, by simpa [Ty.isNamed] using hnamed⟩
  | _ => cases hnamed

namespace Env

open Ty (Same Occurs)

variable {env : Env} {s t u : Ty} {c d target : ClassRef} {σ : Substitution}

/-- A class that is its own generic form, or a parameterized type of a class
that is no array, with types for all variables in the scope of the class. -/
inductive Complete (env : Env) : Ty → Prop where
  | cls {c : ClassRef} (hform : env.classes.genericForm c = .cls c) : Complete env (.cls c)
  | param {owner raw args} (hraw : raw.isArray = false) (hbuilt : (Ty.param owner raw args).Built)
      (hsupplies : env.Supplies (.param owner raw args)) : Complete env (.param owner raw args)

/-- A complete type is an array class, or a use from which the walk starts. -/
theorem Complete.cases (h : env.Complete t) :
    (∃ c, t = .cls c ∧ c.isArray = true) ∨
      (env.Use t ∧ env.viewStart t = some t ∧
        ∀ σ : Substitution, env.viewStart (t.subst σ) = some (t.subst σ)) := by
  cases h with
  | @cls c hform =>
      cases hc : c.isArray with
      | true => exact Or.inl ⟨c, rfl, hc⟩
      | false =>
          right
          have huse : env.Use (env.classes.genericForm c) := use_genericForm hc
          rw [hform] at huse
          have hstart : env.viewStart (.cls c) = some (.cls c) := by
            simp only [viewStart, hc, Bool.false_eq_true, if_false, hform]
          exact ⟨huse, hstart, fun _ => hstart⟩
  | @param owner raw args hraw hbuilt hsupplies =>
      right
      refine ⟨⟨⟨raw, rfl, hraw⟩, hbuilt, Or.inr ⟨rfl, hsupplies⟩⟩, rfl, fun σ => ?_⟩
      rw [Ty.subst_param]
      rfl

/-! ## Array classes -/

/-- From an array class to another class there is one step. -/
theorem viewStep_arrayClass (hc : c.isArray = true) (htarget : target.isArray = false)
    (hsub : env.isSubclass c target = true) (hne : (c == target) = false) :
    ∃ d, env.viewStep target (.cls c) = .goal (.cls d) := by
  have hname : c.name ≠ target.name := by
    intro hname
    rw [ClassRef.beq_iff_name.mpr hname] at hne
    cases hne
  obtain ⟨top, htop, heq⟩ := exists_arrayTop hc htarget hname hsub
  have hedge : Ty.cls top ∈ env.classes.directSupertypes (env.erase (.cls c)) := by
    rw [erase_of_raw? rfl]
    cases c with
    | named _ _ => cases hc
    | array _ _ => exact show Ty.cls top ∈ arrayTops.map Ty.cls from List.mem_map_of_mem htop
  obtain ⟨u, hu⟩ := viewStep_reaches hedge (isSubclass_of_name heq) (ClassRef.beq_iff_name.mpr heq)
  obtain ⟨e, he, rfl, -⟩ := viewStep_goal hu
  rw [erase_of_raw? rfl] at he
  obtain ⟨d, -, rfl⟩ := Subtyping.array_edge hc he
  exact ⟨d, by rw [hu, Subtyping.instantiated_cls]⟩

/-- An array class is seen as a class, itself or one above all arrays. -/
theorem class_of_viewAs_array (hc : c.isArray = true) (htarget : target.isArray = false)
    (hsub : env.isSubclass c target = true) (h : env.viewAs (.cls c) target = .found u) :
    ∃ d, u = .cls d := by
  simp only [viewAs, viewStart, hc, if_true] at h
  split at h
  · cases h
    exact ⟨_, rfl⟩
  · split at h
    · cases h
      exact ⟨_, rfl⟩
    · rename_i hne
      obtain ⟨d, hd⟩ := viewStep_arrayClass hc htarget hsub ((Bool.not_eq_true _).mp hne)
      rw [Limits.walkSteps, search_of_goal 9999 hd] at h
      cases h
      exact ⟨d, rfl⟩

/-! ## The walk -/

/-- The types on the way up, before and after a substitution. An array class is
met just before the end. -/
inductive Tracks (env : Env) (σ : Substitution) (target : ClassRef) : Ty → Ty → Prop where
  | use {a : Ty} (h : env.Use a) : Tracks env σ target a (a.subst σ)
  | array {c d : ClassRef} (hc : c.isArray = true)
      (h : env.viewStep target (.cls c) = .goal (.cls d)) : Tracks env σ target (.cls c) (.cls c)

theorem Tracks.eq_subst (h : env.Tracks σ target s t) : t = s.subst σ := by
  cases h <;> rfl

theorem Tracks.writable (h : env.Tracks σ target s t) : s.Writable := by
  cases h with
  | use h => exact h.built.writable
  | array _ _ => exact .cls trivial

section

variable (hnamed : env.classes.NamedEdges) (hedges : env.ScopedEdges) (hraw : env.ScopedRaw)

include hnamed hedges hraw

theorem viewStep_tracks (htarget : target.isArray = false) (h : env.Tracks σ target s t) :
    (env.viewStep target s).Related (env.Tracks σ target) (fun u u' => u' = u.subst σ)
      (env.viewStep target t) := by
  cases h with
  | array hc h =>
      rw [h]
      exact .goal rfl
  | use huse =>
      obtain ⟨c, hc, harray⟩ := huse.raw
      have herase : env.erase s = c := erase_of_raw? hc
      apply viewStep_related_kept (by rw [erase_subst hc])
      · intro edge hedge
        exact (huse.instantiated_subst hedges hedge σ).symm
      · intro edge hedge hsub hne
        rw [← huse.instantiated_subst hedges hedge σ]
        rcases hnamed.edge (by rwa [herase] at hedge) harray with hedgeRaw | ⟨d, hd, rfl⟩
        · exact .use (huse.step hedges hraw hedge hedgeRaw)
        · rw [erase_of_raw? rfl] at hsub hne
          obtain ⟨e, he⟩ := viewStep_arrayClass hd htarget hsub hne
          rw [Subtyping.instantiated_cls]
          exact .array hd he

omit hnamed hraw in
/-- Equal types of one class are expanded alike. -/
theorem viewStep_same (hs : s.raw? = some c) (hc : c.isArray = false) (ht : t.raw? = some d)
    (hd : d.isArray = false) (hname : c.name = d.name) (hbuilt : s.Built) (hsame : Same s t) :
    (env.viewStep target s).Related Same (fun _ _ => True) (env.viewStep target t) := by
  have hinstantiated : ∀ edge ∈ env.classes.directSupertypes (env.erase s),
      Same (env.instantiated s edge) (env.instantiated t edge) := by
    intro edge hedge
    rw [erase_of_raw? hs] at hedge
    unfold instantiated
    rw [isRawUse_same hsame]
    split
    · exact Ty.same_refl _
    · exact Ty.same_subst (hedges.built c hc edge hedge).writable
        (fun v _ => (built_carried hbuilt v).writable) fun v _ => carried_same hsame v
  apply viewStep_related_kept
  · rw [erase_of_raw? hs, erase_of_raw? ht, Registry.directSupertypes_of_name hc hd hname]
  · exact fun _ _ => trivial
  · exact fun edge hedge _ _ => hinstantiated edge hedge

/-- The walk from uses and the walk from these with the same types put in. -/
theorem merging_viewStep (hσ : ∀ v, ((Ty.var v).subst σ).Built) (htarget : target.isArray = false) :
    Merging (env.viewStep target) (env.viewStep target) (env.Tracks σ target)
      (fun u u' => u' = u.subst σ) where
  related := viewStep_tracks hnamed hedges hraw htarget
  equal := by
    intro a a' s s' ha hs hsame
    rw [ha.eq_subst, hs.eq_subst]
    exact Ty.same_subst_left ha.writable (fun v _ => (hσ v).writable) hsame
  merged := by
    intro a a' s s' ha hs hsame
    -- classes are not changed, so they are equal after when they were before
    have hclass : ∀ {c : ClassRef} {b : Ty}, env.Use b → b.subst σ = .cls c → b = .cls c := by
      intro c b hb h
      obtain ⟨d, hd, -⟩ := hb.raw
      cases b with
      | cls _ => exact h
      | param _ _ _ =>
          rw [Ty.subst_param] at h
          cases h
      | _ => cases hd
    cases ha with
    | array _ _ =>
        left
        obtain ⟨d, heq, hname⟩ := Ty.same_cls.mp hsame
        cases hs with
        | array _ _ => exact hsame
        | use hs =>
            rw [hclass hs heq]
            exact Ty.same_cls.mpr ⟨d, rfl, hname⟩
    | use ha =>
        cases hs with
        | array _ _ =>
            left
            obtain ⟨d, hd, -⟩ := ha.raw
            cases a with
            | cls _ => exact hsame
            | param _ _ _ =>
                rw [Ty.subst_param] at hsame
                obtain ⟨_, _, _, heq, -⟩ := Ty.same_param.mp hsame
                cases heq
            | _ => cases hd
        | use hs =>
            right
            obtain ⟨c, hc, hcarray⟩ := ha.raw
            obtain ⟨d, hd, hdarray⟩ := hs.raw
            obtain ⟨d', hd', hname⟩ := raw?_of_same hsame (raw?_subst hc σ)
            obtain rfl := Option.some.inj ((raw?_subst hd σ).symm.trans hd')
            exact viewStep_same hedges (raw?_subst hc σ) hcarray hd' hdarray hname
              (Ty.built_subst ha.built fun v _ => hσ v) hsame
  trans := Ty.same_trans
  transImage := Ty.same_trans

/-- A use is seen as an ancestor, and with types put in as the ancestor with these put in. -/
theorem viewAs_subst (hσ : ∀ v, ((Ty.var v).subst σ).Built) (htarget : target.isArray = false)
    (ht : env.Use t) (hself : env.viewStart t = some t)
    (hstart : ∀ σ : Substitution, env.viewStart (t.subst σ) = some (t.subst σ))
    (h : env.viewAs t target = .found u) :
    env.viewAs (t.subst σ) target = .found (u.subst σ) := by
  obtain ⟨c, hc, -⟩ := ht.raw
  have hprimitive : (t.subst σ).isPrimitive = t.isPrimitive := by
    cases t with
    | cls _ => rfl
    | param _ _ _ =>
        rw [Ty.subst_param]
        rfl
    | _ => cases hc
  unfold viewAs at h ⊢
  rw [hself] at h
  rw [hprimitive, hstart σ]
  dsimp only at h ⊢
  rw [erase_subst hc]
  split at h
  · rename_i hobject
    rw [if_pos hobject]
    cases h
    rfl
  · rename_i hobject
    rw [if_neg hobject]
    split at h
    · rename_i hsame
      rw [if_pos hsame]
      cases h
      rfl
    · rename_i hne
      rw [if_neg hne]
      obtain ⟨u', hu', rfl⟩ :=
        search_merged (merging_viewStep hnamed hedges hraw hσ htarget) (.use ht) h
      exact hu'

end

/-! ## Navigation -/

theorem resolve_cases (σ : Substitution) :
    (∀ t : Ty, σ.resolve t = t) ∨ ∀ t : Ty, σ.resolve t = t.subst σ := by
  cases hempty : σ.isEmpty with
  | true => exact Or.inl fun t => by rw [Substitution.resolve, if_pos hempty]
  | false =>
      refine Or.inr fun t => ?_
      rw [Substitution.resolve, hempty]
      rfl

/-- What is found above a type is found above the resolved type, resolved with it. -/
theorem supertype_resolve (hnamed : env.classes.NamedEdges) (hedges : env.ScopedEdges)
    (hraw : env.ScopedRaw) (ht : env.Complete t)
    (hσ : ∀ v s, σ.get? v = some s → s.Built) (htarget : target.isArray = false)
    (hu : env.supertype t target = .ok u) :
    env.supertype (σ.resolve t) target = .ok (σ.resolve u) := by
  rcases resolve_cases σ with hresolve | hresolve
  · rw [hresolve, hresolve]
    exact hu
  rw [hresolve, hresolve]
  rcases ht.cases with ⟨c, rfl, hc⟩ | ⟨huse, hself, hstart⟩
  · -- nothing is put into an array class, nor into what is above it
    have hopen : env.upperBounds? (.cls c) = none := rfl
    obtain ⟨hsub, hview⟩ := (supertype_closed_iff hopen htarget).mp hu
    rw [someRawBelow, rawTypes_of_raw? rfl, List.any_cons, List.any_nil, Bool.or_false] at hsub
    obtain ⟨d, rfl⟩ := class_of_viewAs_array hc htarget hsub hview
    exact hu
  · obtain ⟨c, hc, harray⟩ := huse.raw
    obtain ⟨-, hsub, hview⟩ := viewAs_of_supertype hc harray hu
    have hview' := viewAs_subst hnamed hedges hraw (built_image hσ) htarget huse hself hstart hview
    rw [supertype_of_raw? (raw?_subst hc σ) htarget, hsub, hview']
    rfl

/-! ## Two intermediate types that become one -/

def firstVar : TyVar := ⟨0, .ofClass (.named "C" .ordinary), "S"⟩

def secondVar : TyVar := ⟨1, .ofClass (.named "C" .ordinary), "T"⟩

def middleVar : TyVar := ⟨2, .ofClass (.named "P" .interface), "A"⟩

/-- A class with two parameters that implements one interface with each. -/
def forkEnv : Env :=
  ⟨[((ClassDecl.of fooClass).withParameters [fooVar]),
    (((ClassDecl.of (.named "P" .interface)).withParameters [middleVar]).implementing
      (.param none fooClass [.var middleVar])),
    ((((ClassDecl.of (.named "C" .ordinary)).withParameters [firstVar, secondVar]).implementing
      (.param none (.named "P" .interface) [.var firstVar])).implementing
      (.param none (.named "P" .interface) [.var secondVar]))].foldl
      Registry.register .core, .empty⟩

theorem forkEnv_scoped : forkEnv.ScopedEdges ∧ forkEnv.ScopedRaw := by
  have hall : forkEnv.classes.decls.toList.flatMap (fun entry => entry.2.supertypes) =
      [.object, .param none (.named "P" .interface) [.var firstVar],
        .param none (.named "P" .interface) [.var secondVar], .object,
        .param none fooClass [.var middleVar]] := rfl
  constructor
  · apply scopedEdges_of_check (by decide)
    refine Registry.forall_supertypes hall ?_
    simp only [List.forall_mem_cons]
    refine ⟨.cls _, ?_, ?_, .cls _, ?_, List.forall_mem_nil _⟩ <;>
      exact .param (by simp) (by simp [Ty.Built.var])
  · apply scopedRaw_of_noRaw
    refine Registry.forall_supertypes hall ?_
    simp only [List.forall_mem_cons]
    exact ⟨rfl, rfl, rfl, rfl, rfl, List.forall_mem_nil _⟩

/-- Strings for both parameters, below which the two interfaces are one. -/
theorem supertype_resolve_fork :
    let σ : Substitution := ⟨[(firstVar, stringType), (secondVar, stringType)]⟩
    let t := Ty.param none (.named "C" .ordinary) [.var firstVar, .var secondVar]
    forkEnv.supertype (σ.resolve t) fooClass =
      .ok (σ.resolve (.param none fooClass [.var firstVar])) := by
  intro σ t
  have hnamed : forkEnv.classes.NamedEdges := by decide
  have hcomplete : forkEnv.Complete t :=
    .param rfl (.param (by simp) (by simp [Ty.Built.var])) (supplies_of_check (by decide))
  have hσ : ∀ v s, σ.get? v = some s → s.Built := by
    intro v s hget
    obtain ⟨w, hmem, -⟩ := Substitution.mem_of_get? hget
    have hs : s = stringType := by
      simp only [List.mem_cons, List.not_mem_nil, or_false, Prod.mk.injEq] at hmem
      exact hmem.elim And.right And.right
    rw [hs]
    exact .cls _
  exact supertype_resolve hnamed forkEnv_scoped.1 forkEnv_scoped.2 hcomplete hσ rfl rfl

/-! ## An edge that is a variable, and a raw use below an inner class -/

def chainVar : TyVar := ⟨0, .ofClass (.named "C" .ordinary), "T"⟩

/-- A class that extends its own parameter, whose bound has a superclass. -/
def chainEnv : Env :=
  ⟨[ClassDecl.of boundClass, (ClassDecl.of (.named "B" .ordinary)).extending (.cls boundClass),
    (((ClassDecl.of (.named "C" .ordinary)).withParameters [chainVar]).extending
      (.var chainVar))].foldl Registry.register .core,
    ⟨#[some [.cls (.named "B" .ordinary)]]⟩⟩

theorem chainEnv_scoped : chainEnv.ScopedEdges ∧ chainEnv.ScopedRaw := by
  have hall : chainEnv.classes.decls.toList.flatMap (fun entry => entry.2.supertypes) =
      [.object, .cls boundClass, .var chainVar] := rfl
  constructor
  · apply scopedEdges_of_check (by decide)
    refine Registry.forall_supertypes hall ?_
    simp only [List.forall_mem_cons]
    exact ⟨.cls _, .cls _, .var _, List.forall_mem_nil _⟩
  · apply scopedRaw_of_noRaw
    refine Registry.forall_supertypes hall ?_
    simp only [List.forall_mem_cons]
    exact ⟨rfl, rfl, rfl, List.forall_mem_nil _⟩

/-- Above a variable the resolved type need not have the ancestor, and above a
raw use an inner class keeps the parameter that is resolved. -/
theorem supertype_resolve_lost :
    (¬∀ (env : Env) (t u : Ty) (target : ClassRef) (σ : Substitution),
      env.ScopedEdges → env.ScopedRaw → env.Complete t →
      (∀ v s, σ.get? v = some s → s.Built) → target.isArray = false →
      env.supertype t target = .ok u →
      ∃ u', env.supertype (σ.resolve t) target = .ok u' ∧ (u' == σ.resolve u) = true) ∧
    ¬∀ (env : Env) (t u : Ty) (target : ClassRef) (σ : Substitution),
      env.classes.NamedEdges → env.ScopedEdges → env.Complete t →
      (∀ v s, σ.get? v = some s → s.Built) → target.isArray = false →
      env.supertype t target = .ok u →
      ∃ u', env.supertype (σ.resolve t) target = .ok u' ∧ (u' == σ.resolve u) = true := by
  have hbuilt : ∀ (w : TyVar) (d : ClassRef) v s,
      Substitution.get? ⟨[(w, .cls d)]⟩ v = some s → s.Built := by
    intro w d v s hget
    obtain ⟨_, hmem, -⟩ := Substitution.mem_of_get? hget
    rw [(Prod.mk.inj (List.mem_singleton.mp hmem)).2]
    exact .cls d
  constructor
  · intro hclaim
    have hcomplete : chainEnv.Complete (.param none (.named "C" .ordinary) [.var chainVar]) :=
      .param rfl (.param (by simp) (by simp [Ty.Built.var])) (supplies_of_check (by decide))
    obtain ⟨u', hu', -⟩ := hclaim chainEnv _ (.cls boundClass) boundClass
      ⟨[(chainVar, stringType)]⟩ chainEnv_scoped.1 chainEnv_scoped.2 hcomplete (hbuilt _ _) rfl rfl
    have hfails : (chainEnv.supertype (.param none (.named "C" .ordinary) [stringType])
        boundClass).isOk = false := by decide
    rw [show Substitution.resolve ⟨[(chainVar, stringType)]⟩ _ =
      Ty.param none (.named "C" .ordinary) [stringType] from rfl] at hu'
    rw [hu'] at hfails
    cases hfails
  · intro hclaim
    have hcomplete : rawEnv.Complete (.param none outerClass [.var outerVar]) :=
      .param rfl (.param (by simp) (by simp [Ty.Built.var])) (supplies_of_check (by decide))
    obtain ⟨u', hu', hsame⟩ := hclaim rawEnv _ (.param none fooClass [.var outerVar]) fooClass
      ⟨[(outerVar, .object)]⟩ (by decide) rawEnv_scoped hcomplete (hbuilt _ _) rfl rfl
    have hfound : rawEnv.supertype (.param none outerClass [.object]) fooClass =
        .ok (.param none fooClass [.var outerVar]) := rfl
    obtain rfl := Except.ok.inj (hu'.symm.trans hfound)
    exact absurd hsame (by decide)

end Env

end Generics
